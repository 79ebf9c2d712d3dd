import Aquila.Lib.Keyed
import Aquila.Theorems.Execute

/-! Executions in an environment that always answers alike: whether they return, and which verdict each step gets. -/

namespace Aquila.Plan
open Replay hiding Step
variable {i : Nat} {s : Step}

/-! ### The environment -/

/-- A request as a gateway sees it. The content type follows from the rest. -/
structure Request where
  method : String
  uri : String
  headers : List (String × String) := []
  body : List UInt8 := []
deriving DecidableEq

/-- The request of a step of the workload, or why there is none. -/
def request (lib : Lib) (s : Replay.Step) : Except String Request := do
  let uri ← lib.requestURI s.method s.path
  let headers := s.headers.flatMap fun (name, values) => values.map (name, ·)
  return { method := if s.method = "" then "GET" else s.method, uri, headers, body := s.body }

def healthStep (path : String) : Replay.Step := { method := "GET", path := probedPath path }

/-- What never changes: the answers of the gateways to requests, the outcome of `go test`, and the listener for the
    fault proxy. -/
structure Env where
  answer : (target : String) → Request → Reply
  goTest : (module : String) → (packages : List String) → TestRun
  listen : Except String String

/-- The status that a fault step injects. -/
def injectedStatus (s : Step) : Int := if s.status < 1 then 502 else s.status

namespace Env
variable (env : Env) (lib : Lib)

/-- What comes of sending a step to a gateway that answers requests. -/
def sent (answer : Request → Reply) (s : Replay.Step) : Reply :=
  match request lib s with
  | .error e => .badRequest e
  | .ok r => answer r

def gateway : Gateway := fun target _ _ s => sent lib (env.answer target) s

def health (target path : String) : Except (List UInt8) Int :=
  match env.gateway lib target 0 0 { method := "GET", path } with
  | .badRequest e | .failed e _ => .error e
  | .response status _ _ => .ok status

/-- The proxy at its address, and the gateways elsewhere. -/
def proxy (status : Int) : Gateway := fun target _ _ s =>
  if (env.listen.toOption.bind fun addr => (parseTarget lib ("http://" ++ addr)).toOption) = some target then
    sent lib (fun _ => Fault.injected status) s
  else sent lib (env.answer target) s

/-- What an execution of a plan meets. -/
def world (dag : DAG) : World where
  health := env.health lib
  replay _ := env.gateway lib
  replayCtx _ _ := none
  burst _ := env.gateway lib
  burstCtx _ _ := none
  goTest := env.goTest
  listen _ := env.listen
  inject i := env.proxy lib (((dag.steps[i]?).map injectedStatus).getD 0)

/-- Both gateways answer the health probes. -/
def Healthy (base patch path : String) : Prop := healthzPath lib (env.health lib) base patch path = none

instance (base patch path : String) : Decidable (env.Healthy lib base patch path) :=
  inferInstanceAs (Decidable (_ = none))

def observed (url : String) (w : List Replay.Step) : Result := replayed (env.gateway lib) url w 0

def fault (base patch : String) (w : List Replay.Step) (status : Int) : StepResult :=
  let s : Step := { id := "", kind := kindFaultStatus, status }
  probeFault lib (env.world lib { steps := [s] }) 0 s base patch w

/-- The verdict that a step gets, whatever the plan around it replays. -/
def grade (dag : DAG) (base patch : String) (url : Side → String) (w : List Replay.Step) (s : Step) : String :=
  let b := env.observed lib (url .baseline) w
  let p := env.observed lib (url .patch) w
  if s.kind = kindEnv then verdictPrepared
  else if s.kind = kindBehavior then (compare lib b p).verdict
  else if s.kind = kindLatency then (if hasSamples (Replay.latency [b] [p]) then verdictSamples else verdictIncomplete)
  else if s.kind = kindConcurrency then (compareBurst [b] [p]).verdict
  else if s.kind = kindTests then (runTests env.goTest dag).verdict
  else if s.kind = kindFaultStatus then (env.fault lib base patch w (injectedStatus s)).verdict
  else verdictIncomplete

end Env

/-- Replays and bursts are not refused for their numbers. -/
def DAG.WithinLimits (dag : DAG) : Prop :=
  ((replayRepeats dag).2 = true → (replayRepeats dag).1 ≤ maxRepeats) ∧
    ((concurrencyN dag).2 = true → (concurrencyN dag).1 ≤ maxBurst)

instance (dag : DAG) : Decidable dag.WithinLimits := inferInstanceAs (Decidable (_ ∧ _))

/-! ### Numbers -/

theorem foldl_pos {f : Int × Bool → Step → Int × Bool} (keeps : ∀ acc s, 1 ≤ acc.1 → 1 ≤ (f acc s).1) :
    ∀ (steps : List Step) (acc : Int × Bool), 1 ≤ acc.1 → 1 ≤ (steps.foldl f acc).1
  | [], _, pos => pos
  | s :: steps, acc, pos => foldl_pos keeps steps (f acc s) (keeps acc s pos)

theorem replayRepeats_pos (dag : DAG) : 1 ≤ (replayRepeats dag).1 := by
  refine foldl_pos (fun acc s pos => ?_) dag.steps _ le_rfl
  dsimp only
  split_ifs
  · exact pos
  · exact pos
  · dsimp only
    omega
  · exact pos
  · exact pos

theorem concurrencyN_pos (dag : DAG) : 1 ≤ (concurrencyN dag).1 := by
  refine foldl_pos (fun acc s pos => ?_) dag.steps _ (by decide)
  dsimp only
  split_ifs
  · exact pos
  · dsimp only
    omega
  · exact pos

/-! ### Replays -/

section
variable {env : Env} {lib : Lib} {target url : String} {w : List Replay.Step} {n : Int}

theorem repetition_steady (parsed : parseTarget lib target = .ok url) (nonempty : w ≠ []) (rep : Nat) :
    repetition lib (env.gateway lib) (fun _ => none) target w rep = .ok (env.observed lib url w) := by
  simp only [repetition, run, parsed, if_neg nonempty]
  rfl

theorem repetitions_steady (parsed : parseTarget lib target = .ok url) (nonempty : w ≠ []) (n : Nat) :
    (List.range n).mapM (repetition lib (env.gateway lib) (fun _ => none) target w) = .ok
    (List.replicate n (env.observed lib url w)) := by
  rw [mapM_of_ok (repetition_steady parsed nonempty), List.map_const', List.length_range]

theorem repeatRuns_steady (parsed : parseTarget lib target = .ok url) (nonempty : w ≠ []) (pos : 1 ≤ n)
    (few : n ≤ maxRepeats) :
    repeatRuns lib (env.gateway lib)
    (fun _ => none) target w n = .ok (List.replicate n.toNat (env.observed lib url w)) := by
  rw [repeatRuns, clipRepeats, if_neg (by omega), if_neg (by omega)]
  exact repetitions_steady parsed nonempty n.toNat

theorem burst_steady (parsed : parseTarget lib target = .ok url) (nonempty : w ≠ []) (pos : 1 ≤ n)
    (few : n ≤ maxBurst) :
    Replay.burst lib (env.gateway lib)
    (fun _ => none) target w n = .ok (List.replicate n.toNat (env.observed lib url w)) := by
  have accepted : checkTarget lib target = none := by simp [checkTarget, parsed]
  rw [Replay.burst, if_neg (by omega), if_neg (by omega), accepted]
  simp only [if_neg nonempty]
  exact repetitions_steady parsed nonempty n.toNat

theorem repeatRuns_refused (many : maxRepeats < n) : ∃ e, repeatRuns lib (env.gateway lib)
    (fun _ => none) target w n = .error e := by
  have : maxRepeats = 100 := rfl
  rw [repeatRuns, clipRepeats, if_neg (by omega), if_pos many]
  exact ⟨_, rfl⟩

theorem burst_refused (many : maxBurst < n) : ∃ e, Replay.burst lib (env.gateway lib)
    (fun _ => none) target w n = .error e := by
  have : maxBurst = 32 := rfl
  rw [Replay.burst, if_neg (by omega), if_pos many]
  exact ⟨_, rfl⟩

end

/-! ### Repetitions -/

section
variable (n : Nat) (b p : Result)

theorem burstErrors_replicate :
    burstErrors (List.replicate n b) = (n * (burstErrors [b]).1, n * (burstErrors [b]).2) := by
  simp [burstErrors, List.flatMap_replicate, List.countP_flatten]

theorem compareBurst_verdict {base patch : List Result} (nonempty : base ≠ [] ∧ patch ≠ []) :
    (compareBurst base patch).verdict =
      if (burstErrors base).2 = 0 ∨ (burstErrors patch).2 = 0 then verdictIncomplete
      else if (burstErrors patch).1 = (burstErrors base).1 then verdictMatch
      else verdictDiffer := by
  unfold compareBurst
  rw [if_neg (not_or.mpr nonempty)]
  dsimp only
  split_ifs <;> first | rfl | omega

theorem compareBurst_replicate : (compareBurst (List.replicate (n + 1) b) (List.replicate (n + 1) p)).verdict =
    (compareBurst [b] [p]).verdict := by
  rw [compareBurst_verdict (by simp), compareBurst_verdict (by simp)]
  simp only [burstErrors_replicate, mul_eq_zero, Nat.succ_ne_zero, false_or, mul_right_inj' n.succ_ne_zero]

theorem successfulDurations_replicate (i : Nat) :
    successfulDurations (List.replicate (n + 1) b) i = [] ↔ successfulDurations [b] i = [] := by
  simp [successfulDurations, List.filterMap_eq_nil_iff]

theorem hasSamples_replicate : hasSamples (Replay.latency (List.replicate (n + 1) b) (List.replicate (n + 1) p)) =
    hasSamples (Replay.latency [b] [p]) := by
  have some_ : ∀ samples : List Int, decide ((summarize samples).n > 0) = decide (samples ≠ []) := by
    intro samples
    simp [summarize_n, List.length_pos_iff]
  simp only [hasSamples, Replay.latency, List.any_map, Function.comp_def, some_, ne_eq, successfulDurations_replicate]
  simp only [List.replicate_succ, List.head?_cons, reduceCtorEq, not_false_eq_true]

end

/-! ### Executions -/

/-- The replays of both sides. -/
def Env.runs (env : Env) (lib : Lib) (url : Side → String) (w : List Replay.Step) (repeats : Int × Bool) :
    List Result × List Result :=
  if repeats.2 then
    (List.replicate repeats.1.toNat (env.observed lib (url .baseline) w),
      List.replicate repeats.1.toNat (env.observed lib (url .patch) w))
  else ([], [])

theorem bothSides_of_ok {need : Bool} {runs : Side → Except String (List Result)} {out : Side → List Result}
    (each : need = true → ∀ side, runs side = .ok (out side)) :
    bothSides need runs = .ok (if need then (out .baseline, out .patch) else ([], [])) := by
  cases need with
  | false => rfl
  | true =>
    have each := each rfl
    simp only [bothSides, if_true, each]
    rfl

theorem bothSides_of_error {need : Bool} (runs : Side → Except String (List Result)) (needed : need = true)
    (refused : ∃ e, runs .baseline = .error e) : ∃ e, bothSides need runs = .error e := by
  obtain ⟨e, refused⟩ := refused
  refine ⟨e, ?_⟩
  rw [bothSides, if_pos needed, refused]
  rfl

def Env.data (env : Env) (lib : Lib) (dag : DAG) (base patch : String) (url : Side → String)
    (w : List Replay.Step) : ExecData :=
  execData lib (env.world lib dag) dag base patch w (env.runs lib url w (replayRepeats dag))
    (env.runs lib url w (concurrencyN dag))

theorem Env.Healthy.probeEnv {env : Env} {lib : Lib} {base patch : String} (dag : DAG)
    (healthy : env.Healthy lib base patch dag.healthPath) :
    probeEnv lib (env.world lib dag) dag base patch = none := by
  unfold Plan.probeEnv
  split_ifs
  · exact healthy
  · rfl

section
variable {env : Env} {lib : Lib} {dag : DAG} (target : Side → String) {url : Side → String} {w : List Replay.Step}

variable (healthy : env.Healthy lib (target .baseline) (target .patch) dag.healthPath)
  (parsed : ∀ side, parseTarget lib (target side) = .ok (url side)) (nonempty : w ≠ [])
include healthy parsed nonempty

theorem execute_eq : execute lib (env.world lib dag) dag (target .baseline) (target .patch) w = (do
    let replays ← bothSides (replayRepeats dag).2 fun side =>
      repeatRuns lib (env.gateway lib) (fun _ => none) (target side) w (replayRepeats dag).1
    let bursts ← bothSides (concurrencyN dag).2 fun side =>
      Replay.burst lib (env.gateway lib) (fun _ => none) (target side) w (concurrencyN dag).1
    return evidence lib dag (execData lib (env.world lib dag) dag (target .baseline) (target .patch) w replays
      bursts)) := by
  have accepted : ∀ side, checkTarget lib (target side) = none := fun side => by rw [checkTarget, parsed side]
  have full : w.isEmpty = false := by simpa using nonempty
  simp only [execute, accepted, full, Bool.and_false, Bool.false_eq_true, if_false, Env.Healthy.probeEnv dag healthy,
    Option.isNone_none, Bool.true_and]
  rfl

theorem execute_within (within : dag.WithinLimits) : execute lib (env.world lib dag) dag (target .baseline)
    (target .patch) w =
    .ok (evidence lib dag (env.data lib dag (target .baseline) (target .patch) url w)) := by
  rw [execute_eq target healthy parsed nonempty,
    bothSides_of_ok fun need side => repeatRuns_steady (parsed side) nonempty (replayRepeats_pos dag) (within.1 need),
    bothSides_of_ok fun need side => burst_steady (parsed side) nonempty (concurrencyN_pos dag) (within.2 need)]
  rfl

theorem execute_beyond (beyond : ¬dag.WithinLimits) :
    ∃ e, execute lib (env.world lib dag) dag (target .baseline) (target .patch) w = .error e := by
  rw [execute_eq target healthy parsed nonempty]
  by_cases few : (replayRepeats dag).2 = true → (replayRepeats dag).1 ≤ maxRepeats
  · have many : ¬((concurrencyN dag).2 = true → (concurrencyN dag).1 ≤ maxBurst) := fun bursts => beyond ⟨few, bursts⟩
    obtain ⟨need, many⟩ := Classical.not_imp.mp many
    obtain ⟨e, refused⟩ := bothSides_of_error (fun side =>
      Replay.burst lib (env.gateway lib) (fun _ => none) (target side) w (concurrencyN dag).1) need
        (burst_refused (not_le.mp many))
    rw [bothSides_of_ok fun need side => repeatRuns_steady (parsed side) nonempty (replayRepeats_pos dag)
      (few need), refused]
    exact ⟨e, rfl⟩
  · obtain ⟨need, many⟩ := Classical.not_imp.mp few
    obtain ⟨e, refused⟩ := bothSides_of_error (fun side =>
      repeatRuns lib (env.gateway lib) (fun _ => none) (target side) w (replayRepeats dag).1) need
        (repeatRuns_refused (not_le.mp many))
    rw [refused]
    exact ⟨e, rfl⟩

end

/-! ### Fault probes -/

/-- The verdict of a probe depends on the status, the listener and the gateways that it meets. -/
theorem probeFault_verdict {lib : Lib} {world world' : World} {i' : Nat} {s' : Step} (base patch : String)
    (w : List Replay.Step)
    (status : injectedStatus s = injectedStatus s') (listen : world.listen i = world'.listen i')
    (inject : world.inject i = world'.inject i') :
    (probeFault lib world i s base patch w).verdict = (probeFault lib world' i' s' base patch w).verdict := by
  unfold injectedStatus at status
  simp only [probeFault, status, listen, inject]
  cases Fault.handler lib patch { status := if s'.status < 1 then 502 else s'.status } with
  | some e => rfl
  | none =>
    cases world'.listen i' with
    | error e => rfl
    | ok addr =>
      dsimp only
      cases run lib (world'.inject i') ("http://" ++ addr) [probeStep lib w] 0 with
      | error e => rfl
      | ok inj =>
        cases run lib (world'.inject i') base [probeStep lib w] 0 with
        | error e => rfl
        | ok baseRun =>
          dsimp only
          split_ifs <;> rfl

theorem injectedStatus_pos (s : Step) : 1 ≤ injectedStatus s := by
  unfold injectedStatus
  split_ifs <;> omega

theorem fault_verdict {env : Env} {lib : Lib} {dag : DAG} (hi : dag.steps[i]? = some s) (base patch : String)
    (w : List Replay.Step) :
    (probeFault lib (env.world lib dag) i s base patch w).verdict =
    (env.fault lib base patch w (injectedStatus s)).verdict := by
  have pos := injectedStatus_pos s
  have same : injectedStatus { id := "", kind := kindFaultStatus, status := injectedStatus s } = injectedStatus s := by
    rw [injectedStatus, if_neg (by dsimp only; omega)]
  refine probeFault_verdict base patch w same.symm rfl ?_
  simp only [Env.world, hi, List.getElem?_cons_zero, Option.map_some, Option.getD_some, same]

theorem lookup_fault {lib : Lib} {world : World} {dag : DAG} {base patch : String} {w : List Replay.Step}
    {replays bursts : List Result × List Result} (distinct : (dag.steps.map Step.id).Nodup)
    (hi : dag.steps[i]? = some s) (kind : s.kind = kindFaultStatus) (operator : s.operator = false) :
    (execData lib world dag base patch w replays bursts).fault.reverse.lookup s.id = some
    (probeFault lib world i s base patch w) := by
  have mem : (s.id, probeFault lib world i s base patch w) ∈
    (execData lib world dag base patch w replays bursts).fault :=
    List.mem_filterMap.mpr ⟨(s, i), List.mem_zipIdx_iff_getElem?.mpr hi, by simp [kind, operator]⟩
  cases found : (execData lib world dag base patch w replays bursts).fault.reverse.lookup s.id with
  | none =>
    have absent := List.lookup_eq_none_iff.mp found _ (List.mem_reverse.mpr mem)
    simp at absent
  | some got =>
    obtain ⟨⟨s', i'⟩, hs', entry⟩ := List.mem_filterMap.mp (mem_fault_of_lookup found)
    dsimp only at entry
    split_ifs at entry with isFault
    obtain ⟨same, rfl⟩ := Prod.mk.inj (Option.some.inj entry)
    have hi' := List.mem_zipIdx_iff_getElem?.mp hs'
    have ids : (dag.steps.map Step.id)[i']? = (dag.steps.map Step.id)[i]? := by
      rw [List.getElem?_map, List.getElem?_map, hi, hi', Option.map_some, Option.map_some, same]
    obtain rfl : i' = i := List.getElem?_inj (by simpa using (List.getElem?_eq_some_iff.mp hi').1) distinct |>.mp ids
    obtain rfl := Option.some.inj (hi.symm.trans hi')
    rfl

/-! ### Verdicts -/

theorem Env.runs_pos (env : Env) (lib : Lib) (url : Side → String) (w : List Replay.Step) {repeats : Int × Bool}
    (need : repeats.2 = true) (pos : 1 ≤ repeats.1) :
    ∃ n, env.runs lib url w repeats =
      (List.replicate (n + 1) (env.observed lib (url .baseline) w),
        List.replicate (n + 1) (env.observed lib (url .patch) w)) := by
  refine ⟨repeats.1.toNat - 1, ?_⟩
  rw [Env.runs, if_pos need, Nat.sub_add_cancel (by omega)]

section
variable {env : Env} {lib : Lib} {dag : DAG} {base patch : String} {url : Side → String} {w : List Replay.Step}

/-- A step that is not the operator's gets its grade. -/
theorem evalStep_grade (healthy : probeEnv lib (env.world lib dag) dag base patch = none)
    (distinct : (dag.steps.map Step.id).Nodup)
    (hi : dag.steps[i]? = some s) (operator : s.operator = false) :
    (evalStep lib s (env.data lib dag base patch url w)).verdict = env.grade lib dag base patch url w s := by
  have mem := List.mem_of_getElem? hi
  by_cases isEnv : s.kind = kindEnv
  · have envErr : (env.data lib dag base patch url w).envErr = none := healthy
    rw [evalStep_env isEnv operator, if_pos envErr]
    simp only [Env.grade, if_pos isEnv]
  by_cases behavior : s.kind = kindBehavior
  · obtain ⟨n, runs⟩ := env.runs_pos lib url w (replayRepeats_need mem operator (.inl behavior)) (replayRepeats_pos dag)
    rw [(evalStep_behavior behavior operator _).1]
    simp only [Env.grade, if_neg isEnv, if_pos behavior, Env.data, execData, runs]
    rfl
  by_cases latency : s.kind = kindLatency
  · obtain ⟨n, runs⟩ := env.runs_pos lib url w (replayRepeats_need mem operator (.inr latency)) (replayRepeats_pos dag)
    simp only [Env.grade, evalStep, operator, if_neg behavior, if_pos latency, isEnv, false_and, if_false,
      Bool.false_eq_true, Env.data, execData, runs, hasSamples_replicate]
    rw [if_neg (by simp)]
    split_ifs <;> simp_all
  by_cases concurrency : s.kind = kindConcurrency
  · obtain ⟨n, runs⟩ := env.runs_pos lib url w (concurrencyN_need mem operator concurrency) (concurrencyN_pos dag)
    rw [evalStep_concurrency concurrency operator]
    simp only [Env.grade, if_neg isEnv, if_neg behavior, if_neg latency, if_pos concurrency, Env.data, execData, runs,
      compareBurst_replicate]
  by_cases tests : s.kind = kindTests
  · have has : hasKind dag kindTests = true := List.any_eq_true.mpr ⟨s, mem, by simpa using tests⟩
    simp only [Env.grade, evalStep, operator, if_neg behavior, if_neg latency, if_neg concurrency, if_pos tests,
      isEnv, false_and, if_false, Bool.false_eq_true, Env.data, execData, has, if_true]
    rfl
  by_cases fault : s.kind = kindFaultStatus
  · simp only [Env.grade, evalStep, operator, if_neg behavior, if_neg latency, if_neg concurrency,
      if_neg tests, if_pos fault, isEnv, false_and, if_false, Bool.false_eq_true, Env.data,
        lookup_fault distinct hi fault operator]
    exact fault_verdict hi base patch w
  · simp only [Env.grade, evalStep, operator, if_neg behavior, if_neg latency, if_neg concurrency,
      if_neg tests, if_neg fault, isEnv, false_and, if_false, Bool.false_eq_true]

theorem grade_tests (kind : s.kind = kindTests) :
    env.grade lib dag base patch url w s = (runTests env.goTest dag).verdict := by
  have others : kindTests ≠ kindEnv ∧ kindTests ≠ kindBehavior ∧ kindTests ≠ kindLatency ∧
    kindTests ≠ kindConcurrency := by decide
  simp [Env.grade, kind, others]

theorem grade_fault (kind : s.kind = kindFaultStatus) :
    env.grade lib dag base patch url w s = (env.fault lib base patch w (injectedStatus s)).verdict := by
  have others : kindFaultStatus ≠ kindEnv ∧ kindFaultStatus ≠ kindBehavior ∧ kindFaultStatus ≠ kindLatency ∧
      kindFaultStatus ≠ kindConcurrency ∧ kindFaultStatus ≠ kindTests := by decide
  simp [Env.grade, kind, others]

theorem grade_congr {dag' : DAG} {s' : Step} (kind : s.kind = s'.kind)
    (tests : s'.kind = kindTests → (runTests env.goTest dag).verdict = (runTests env.goTest dag').verdict)
    (fault : s'.kind = kindFaultStatus →
      (env.fault lib base patch w (injectedStatus s)).verdict =
    (env.fault lib base patch w (injectedStatus s')).verdict) :
    env.grade lib dag base patch url w s = env.grade lib dag' base patch url w s' := by
  by_cases isTests : s'.kind = kindTests
  · rw [grade_tests (kind.trans isTests), grade_tests isTests, tests isTests]
  by_cases isFault : s'.kind = kindFaultStatus
  · rw [grade_fault (kind.trans isFault), grade_fault isFault, fault isFault]
  simp only [Env.grade, kind, if_neg isTests, if_neg isFault]

theorem probeFault_verdict_mem (world : World) (i : Nat) (s : Step) :
    (probeFault lib world i s base patch w).verdict ∈ [verdictIncomplete, verdictPrepared] := by
  unfold probeFault
  dsimp only
  split
  · simp
  · split
    · simp
    · split
      · simp
      · simp
      · split_ifs <;> simp

theorem runTests_verdict_mem (goTest : String → List String → TestRun) :
    (runTests goTest dag).verdict ∈ [verdictDiffer, verdictIncomplete, verdictPrepared] := by
  unfold runTests
  dsimp only
  split_ifs
  · simp
  · simp
  · cases goTest dag.module dag.testPackages <;> simp

theorem runTests_idle (goTest : String → List String → TestRun) (hs : s ∈ dag.steps) (kind : s.kind = kindTests)
    (operator : s.operator = false) (idle : ¬RunsTests dag) : (runTests goTest dag).verdict = verdictIncomplete := by
  unfold runTests
  dsimp only
  split_ifs with unnamed illegal
  · rfl
  · rfl
  · exact absurd ⟨⟨s, hs, kind, operator⟩, unnamed, illegal⟩ idle

theorem runTests_passed (runs : RunsTests dag) : (runTests (fun _ _ => .passed) dag).verdict = verdictPrepared := by
  unfold runTests
  rw [if_neg runs.2.1, if_neg runs.2.2]

theorem grade_ne_pass (s : Step) :
    ¬(env.grade lib dag base patch url w s = "pass" ∨ env.grade lib dag base patch url w s = "validated") := by
  have compared : ∀ v ∈ [verdictMatch, verdictDiffer, verdictIncomplete], ¬(v = "pass" ∨ v = "validated") := by decide
  have tested : ∀ v ∈ [verdictDiffer, verdictIncomplete, verdictPrepared], ¬(v = "pass" ∨ v = "validated") := by decide
  have probed : ∀ v ∈ [verdictIncomplete, verdictPrepared], ¬(v = "pass" ∨ v = "validated") := by decide
  unfold Env.grade
  dsimp only
  split_ifs
  · exact probed _ (by simp)
  · exact compared _ (compareFirst_verdict_mem lib [env.observed lib (url .baseline) w]
      [env.observed lib (url .patch) w])
  · decide
  · exact probed _ (by simp)
  · exact compared _ (compareBurst_verdict_mem _ _)
  · exact tested _ (runTests_verdict_mem env.goTest)
  · exact probed _ (probeFault_verdict_mem _ _ _)
  · exact probed _ (by simp)

theorem evalStep_id {data : ExecData} (fault : ∀ e ∈ data.fault, e.2.id = e.1) (s : Step) :
    (evalStep lib s data).id = s.id := by
  unfold evalStep
  dsimp only
  split_ifs
  · split <;> rfl
  · rfl
  · rfl
  · rfl
  · rfl
  · rfl
  · rfl
  · rfl
  · cases found : data.fault.reverse.lookup s.id with
    | some got => exact fault _ (mem_fault_of_lookup found)
    | none => rfl
  · rfl

end

/-- The verdict of the step with an id, if there is evidence. -/
def verdictOf (id : String) (r : Except String Evidence) : Option String :=
  r.toOption.bind fun ev => (ev.steps.find? (·.id = id)).map (·.verdict)

section
variable {env : Env} {lib : Lib} {dag : DAG} {base patch : String} {url : Side → String} {w : List Replay.Step}

theorem Env.Healthy.parsed {path : String} (healthy : env.Healthy lib base patch path) :
    ∃ url : Side → String, ∀ side, parseTarget lib (sides base patch side) = .ok (url side) := by
  obtain ⟨-, baseline, patched⟩ := healthzPath_eq_none_iff.mp healthy
  have each : ∀ side, ∃ url, parseTarget lib (sides base patch side) = .ok url := by
    intro side
    cases side with
    | baseline => exact (oneHealthz_eq_none_iff.mp baseline).imp fun url h => h.choose_spec.1
    | patch => exact (oneHealthz_eq_none_iff.mp patched).imp fun url h => h.choose_spec.1
  choose url parsed using each
  exact ⟨url, parsed⟩

variable (healthy : env.Healthy lib base patch dag.healthPath)
  (parsed : ∀ side, parseTarget lib (sides base patch side) = .ok (url side))
  (nonempty : w ≠ [])
include healthy parsed nonempty

theorem verdictOf_within (within : dag.WithinLimits) (distinct : (dag.steps.map Step.id).Nodup)
    (hi : dag.steps[i]? = some s) (operator : s.operator = false) :
    verdictOf s.id (execute lib (env.world lib dag) dag base patch w) = some
    (env.grade lib dag base patch url w s) := by
  have executed : execute lib (env.world lib dag) dag base patch w = .ok
    (evidence lib dag (env.data lib dag base patch url w)) :=
    execute_within (sides base patch) healthy parsed nonempty within
  have ids : ∀ s, (evalStep lib s (env.data lib dag base patch url w)).id = s.id := by
    refine evalStep_id fun e he => ?_
    obtain ⟨i, s, -, rfl⟩ := mem_execData_fault he
    exact (probeFault_names lib _ i s base patch w).1
  have found : dag.steps.find? (fun t => t.id = s.id) = some s := Keyed.get_of_mem distinct (List.mem_of_getElem? hi)
  rw [executed]
  simp only [verdictOf, Except.toOption, Option.bind_some, evidence, List.find?_map, Function.comp_def, ids, found,
    Option.map_some]
  exact congrArg some (evalStep_grade (Env.Healthy.probeEnv dag healthy) distinct hi operator)

theorem verdictOf_beyond (beyond : ¬dag.WithinLimits) (id : String) :
    verdictOf id (execute lib (env.world lib dag) dag base patch w) = none := by
  obtain ⟨e, executed⟩ := execute_beyond (sides base patch) healthy parsed nonempty beyond
  exact congrArg (verdictOf id) executed

end

/-! ### A simple environment -/

/-- A target that a replay accepts is one for the fault proxy. -/
theorem handler_of_parsed {lib : Lib} {target url : String} (parsed : parseTarget lib target = .ok url) (status : Int) :
    Fault.handler lib target { status } = if status < 0 ∨ status > 599 then some "fault: status out of range"
    else none := by
  unfold parseTarget at parsed
  unfold Fault.handler
  dsimp only at parsed ⊢
  generalize (if contains (trimSpace target) "://" then trimSpace target else "http://" ++ trimSpace target) =
    raw at parsed ⊢
  by_cases empty : trimSpace target = ""
  · simp [empty] at parsed
  simp only [if_neg empty] at parsed ⊢
  cases hu : lib.parseURL raw with
  | error e => simp [hu] at parsed
  | ok u =>
    simp only [hu] at parsed ⊢
    split_ifs at parsed with scheme host user
    rw [if_neg scheme, if_neg host, if_neg user]
    cases guarded : Netguard.checkURL lib (lib.urlString u) with
    | some e => simp [guarded] at parsed
    | none => rw [if_neg (by decide), if_neg (by decide), Option.map_none]

/-- The listener of the fault proxy works, and is not the baseline. -/
def Env.Listens (env : Env) (lib : Lib) (base : String) : Prop :=
  ∃ addr at_ url, env.listen = .ok addr ∧ parseTarget lib ("http://" ++ addr) = .ok at_ ∧
    parseTarget lib base = .ok url ∧ at_ ≠ url

/-- A status that a client gets from the proxy that is asked for it. -/
def Served (status : Int) : Prop := status = 101 ∨ 200 ≤ status ∧ status ≤ 599

theorem run_single {lib : Lib} {gw : Gateway} {target url : String} (parsed : parseTarget lib target = .ok url)
    (st : Replay.Step) :
    run lib gw target [st] 0 = .ok { target := url, steps := [runStep gw url 0 0 st] } := by
  simp [run, parsed]

theorem injected_status {gw : Gateway} {lib : Lib} {url : String} {st : Replay.Step} {status : Int} (pos : 1 ≤ status)
    (range : status ≤ 599)
    (proxied : gw url 0 0 st = Env.sent lib (fun _ => Fault.injected status) st) :
    (runStep gw url 0 0 st).status = status ↔ Served status ∧ ∃ r, request lib st = .ok r := by
  simp only [runStep, proxied, Env.sent, Served]
  cases request lib st with
  | error e =>
    simp only [reduceCtorEq, exists_false, and_false, iff_false]
    omega
  | ok r =>
    simp only [Fault.injected, Except.ok.injEq, exists_eq', and_true]
    by_cases low : status < 100
    · simp only [if_pos low]
      omega
    · rw [if_neg low]
      dsimp only
      split_ifs <;> dsimp only <;> omega

/-- A fault step is prepared when the proxy serves the status, and the baseline answers the same request with
    another one. -/
theorem fault_prepared_iff {env : Env} {lib : Lib} {base patch : String} {url : Side → String} {w : List Replay.Step}
    {status : Int}
    (parsed : ∀ side, parseTarget lib (sides base patch side) = .ok (url side)) (pos : 1 ≤ status) :
    (env.fault lib base patch w status).verdict = verdictPrepared ↔
      Served status ∧ (∃ r, request lib (probeStep lib w) = .ok r) ∧ env.Listens lib base ∧
        (runStep (env.gateway lib) (url .baseline) 0 0 (probeStep lib w)).err = [] ∧
        (runStep (env.gateway lib) (url .baseline) 0 0 (probeStep lib w)).status ≠ status := by
  have incomplete : verdictIncomplete ≠ verdictPrepared := by decide
  have parsedBase : parseTarget lib base = .ok (url .baseline) := parsed .baseline
  have parsedPatch : parseTarget lib patch = .ok (url .patch) := parsed .patch
  have kept : injectedStatus { id := "", kind := kindFaultStatus, status } = status := by
    rw [injectedStatus, if_neg (by dsimp only; omega)]
  have inject : (env.world lib { steps := [{ id := "", kind := kindFaultStatus, status }] }).inject 0 =
    env.proxy lib status := by
    simp only [Env.world, List.getElem?_cons_zero, Option.map_some, Option.getD_some, kept]
  have listen : (env.world lib { steps := [{ id := "", kind := kindFaultStatus, status }] }).listen 0 =
    env.listen := rfl
  unfold injectedStatus at kept
  simp only [Env.fault, probeFault, kept, inject, listen, handler_of_parsed parsedPatch]
  by_cases range : status ≤ 599
  · rw [if_neg (by omega)]
    dsimp only
    cases listening : env.listen with
    | error e => simp [Env.Listens, listening, incomplete]
    | ok addr =>
      cases parsedAt : parseTarget lib ("http://" ++ addr) with
      | error e => simp [Env.Listens, listening, parsedAt, run, incomplete]
      | ok at_ =>
        have proxied : env.proxy lib status at_ 0 0 (probeStep lib w) =
            Env.sent lib (fun _ => Fault.injected status) (probeStep lib w) := by
          simp [Env.proxy, listening, Except.toOption, parsedAt]
        have injected := injected_status pos range proxied
        have listens : env.Listens lib base ↔ at_ ≠ url .baseline := by
          simp [Env.Listens, listening, parsedAt, parsedBase]
        have elsewhere (apart : at_ ≠ url .baseline) : runStep (env.proxy lib status) (url .baseline) 0 0
          (probeStep lib w) =
            runStep (env.gateway lib) (url .baseline) 0 0 (probeStep lib w) := by
          simp [runStep, Env.proxy, Env.gateway, listening, Except.toOption, parsedAt, apart]
        simp only [run_single parsedAt, run_single parsedBase, listens]
        split_ifs with unmet failed
        · refine iff_of_false incomplete fun told => unmet ?_
          simpa using injected.mpr ⟨told.1, told.2.1⟩
        · refine iff_of_false incomplete fun told => ?_
          simp [elsewhere told.2.2.1, told.2.2.2] at failed
        · obtain ⟨served, built⟩ := injected.mp (by simpa using unmet)
          -- a baseline that were the proxy would answer with the status
          have apart : at_ ≠ url .baseline := by
            rintro rfl
            simp_all
          simpa [served, built, apart, elsewhere apart] using failed
  · rw [if_pos (by omega)]
    refine iff_of_false incomplete fun told => ?_
    have served : Served status := told.1
    unfold Served at served
    omega

/-! ### Healthy gateways -/

/-- A reply with a 2xx status. -/
def Healthful : Reply → Prop
  | .response status _ _ => 200 ≤ status ∧ status ≤ 299
  | _ => False

/-- The environment with gateways that answer one request with a status, and every other one with 200. -/
def Env.answering (env : Env) (r : Request) (status : Int) : Env :=
  { env with answer := fun _ r' => .response (if r' = r then status else 200) (.ok []) 1 }

/-- The fault probe of a workload meets no healthy baseline that tells a status from the default one: its request
    cannot be built, or it is that of the health probe and the status is served, but not by a healthy gateway. -/
def Untold (lib : Lib) (path : String) (w : List Replay.Step) (status : Int) : Prop :=
  (∀ r, request lib (probeStep lib w) ≠ .ok r) ∨
    request lib (probeStep lib w) = request lib (healthStep path) ∧ Served status ∧ ¬(200 ≤ status ∧ status ≤ 299)

section
variable {env : Env} {lib : Lib} {base patch path : String} {url : Side → String} {w : List Replay.Step} {r : Request}
  {status answered : Int}
  (parsed : ∀ side, parseTarget lib (sides base patch side) = .ok (url side))
include parsed

theorem Env.healthy_iff : env.Healthy lib base patch path ↔ safeReplay "GET" (probedPath path) = true ∧
    ∃ r, request lib (healthStep path) = .ok r ∧ ∀ side, Healthful (env.answer (url side) r) := by
  have one {target url : String} (parsed : parseTarget lib target = .ok url) :
      oneHealthz lib (env.health lib) target (probedPath path) = none ↔
        ∃ r, request lib (healthStep path) = .ok r ∧ Healthful (env.answer url r) := by
    rw [oneHealthz_eq_none_iff, parsed]
    simp only [Except.ok.injEq, exists_and_left, exists_eq_left', Env.health, Env.gateway, Env.sent]
    rw [← healthStep]
    cases request lib (healthStep path) with
    | error e => simp
    | ok r =>
      simp only [Except.ok.injEq, exists_eq_left']
      cases env.answer url r <;> simp [Healthful]
  have base : parseTarget lib base = .ok (url .baseline) := parsed .baseline
  have patch : parseTarget lib patch = .ok (url .patch) := parsed .patch
  rw [Env.Healthy, healthzPath_eq_none_iff, one base, one patch]
  refine and_congr_right fun _ => ?_
  constructor
  · rintro ⟨⟨r, sent, base⟩, r', sent', patch⟩
    obtain rfl := Except.ok.inj (sent.symm.trans sent')
    refine ⟨r, sent, fun side => ?_⟩
    cases side with
    | baseline => exact base
    | patch => exact patch
  · rintro ⟨r, sent, fine⟩
    exact ⟨⟨r, sent, fine .baseline⟩, r, sent, fine .patch⟩

theorem Env.Healthy.answering (healthy : env.Healthy lib base patch path)
    (fine : request lib (healthStep path) = .ok r → 200 ≤ answered ∧ answered ≤ 299) :
    (env.answering r answered).Healthy lib base patch path := by
  obtain ⟨safe, r', sent, -⟩ := (Env.healthy_iff parsed).mp healthy
  refine (Env.healthy_iff parsed).mpr ⟨safe, r', sent, fun side => ?_⟩
  simp only [Env.answering, Healthful]
  split_ifs with same
  · exact fine (same ▸ sent)
  · decide

theorem fault_answering (listens : env.Listens lib base) (sent : request lib (probeStep lib w) = .ok r)
    (pos : 1 ≤ status) :
    ((env.answering r answered).fault lib base patch w status).verdict = verdictPrepared ↔ Served status ∧
    answered ≠ status := by
  have listens : (env.answering r answered).Listens lib base := listens
  have obs : runStep ((env.answering r answered).gateway lib) (url .baseline) 0 0 (probeStep lib w) =
      { method := (probeStep lib w).method, path := (probeStep lib
        w).path, status := answered, durationNS := int64 1 } := by
    simp [runStep, Env.gateway, Env.sent, sent, Env.answering]
  rw [fault_prepared_iff parsed pos, obs]
  simp [listens, sent]

theorem exists_told_apart (healthy : env.Healthy lib base patch path) (listens : env.Listens lib base)
    (pos : 1 ≤ status) (other : status ≠ 502)
    (told : ¬Untold lib path w status) : ∃ env' : Env, env'.Healthy lib base patch path ∧
      (env'.fault lib base patch w 502).verdict ≠ (env'.fault lib base patch w status).verdict := by
  obtain ⟨built, told⟩ := not_or.mp told
  obtain ⟨r, sent⟩ := not_forall_not.mp built
  have default : Served 502 := .inr (by decide)
  suffices ∃ answered, (request lib (healthStep path) = .ok r → 200 ≤ answered ∧ answered ≤ 299) ∧
      ¬(answered ≠ 502 ↔ Served status ∧ answered ≠ status) by
    obtain ⟨answered, fine, differ⟩ := this
    refine ⟨env.answering r answered, healthy.answering parsed fine, fun same => differ ?_⟩
    rw [← fault_answering parsed listens sent pos, ← same, fault_answering parsed listens sent (by decide)]
    simp [default]
  by_cases served : Served status
  · by_cases probe : request lib (healthStep path) = .ok r
    · -- the health probe itself: a healthy gateway may answer with the status
      have fine : 200 ≤ status ∧ status ≤ 299 := by
        by_contra ill
        exact told ⟨sent.trans probe.symm, served, ill⟩
      exact ⟨status, fun _ => fine, by simp [other]⟩
    · exact ⟨502, fun same => absurd same probe, by simp [served, other.symm]⟩
  · exact ⟨200, fun _ => by decide, by simp [served]⟩

theorem fault_untold (healthy : env.Healthy lib base patch path) (pos : 1 ≤ status)
    (untold : Untold lib path w status) :
    (env.fault lib base patch w 502).verdict = (env.fault lib base patch w status).verdict := by
  have mem (status : Int) : (env.fault lib base patch w status).verdict ∈ [verdictIncomplete, verdictPrepared] :=
    probeFault_verdict_mem _ _ _
  have default : Served 502 := .inr (by decide)
  suffices (env.fault lib base patch w 502).verdict = verdictPrepared ↔
    (env.fault lib base patch w status).verdict = verdictPrepared by
    have left := mem 502
    have right := mem status
    simp only [List.mem_cons, List.not_mem_nil, or_false] at left right
    rcases left with left | left
    · rcases right with right | right
      · rw [left, right]
      · rw [this.mpr right, right]
    · rw [left, this.mp left]
  rw [fault_prepared_iff parsed (by decide), fault_prepared_iff parsed pos]
  rcases untold with unbuilt | ⟨same, served, ill⟩
  · refine iff_of_false (fun prepared => ?_) fun prepared => ?_
    · exact absurd prepared.2.1.choose_spec (unbuilt _)
    · exact absurd prepared.2.1.choose_spec (unbuilt _)
  · obtain ⟨-, r, sent, fine⟩ := (Env.healthy_iff parsed).mp healthy
    have fine := fine .baseline
    have status : 200 ≤ (runStep (env.gateway lib) (url .baseline) 0 0 (probeStep lib w)).status ∧
        (runStep (env.gateway lib) (url .baseline) 0 0 (probeStep lib w)).status ≤ 299 := by
      simp only [runStep, Env.gateway, Env.sent, same, sent]
      cases answer : env.answer (url .baseline) r with
      | badRequest e => simp [answer, Healthful] at fine
      | failed e ns => simp [answer, Healthful] at fine
      | response status body ns =>
        simp only [answer, Healthful] at fine
        cases body with
        | error e => exact fine
        | ok raw =>
          dsimp only
          split_ifs <;> exact fine
    simp only [default, served, true_and]
    refine and_congr_right fun _ => and_congr_right fun _ => and_congr_right fun _ => iff_of_true (by omega)
      fun taken => ill (taken ▸ status)

end

end Aquila.Plan

import Aquila.Impact
import Aquila.Plan

/-! `internal/validate`: whether executed evidence validates a change, and if not, what blocks it. -/

namespace Aquila

/-- `gitrev.Revision`: a module tree and the commit that retains it. -/
structure Revision where
  commit : String := ""
  tree : String := ""
  path : String := ""
  dirty : Bool := false
  source : String := ""
deriving DecidableEq, Repr

def sourceBuilt : String := "built"

namespace Validate
open Replay (verdictMatch shifted)
open Plan (kindEnv kindBehavior kindLatency kindConcurrency kindTests verdictSamples verdictPrepared)

def minLatencyN : Int := 20

def coverageObserved : String := "observed"
def coverageInferred : String := "inferred"

/-! ### Blockers -/

def codeLegacySchema : String := "legacy_schema"
def codeDirtyBaseline : String := "dirty_baseline"
def codeUnverifiedRevision : String := "unverified_revision"
def codeMissingTarget : String := "missing_target"
def codeSameTarget : String := "same_target"
def codeNotMatch : String := "not_match"
def codeStepMissing : String := "step_missing"
def codeStepFailed : String := "step_failed"
def codeDuplicateStep : String := "duplicate_step"
def codeLatencyN : String := "latency_n"
def codeLatencyShift : String := "latency_shift"
def codeUnanalyzedChange : String := "unanalyzed_change"
def codeNoFunctionBinding : String := "no_function_binding"
def codeNoRuntimeRoute : String := "no_runtime_route"
def codeRouteMissed : String := "route_missed"

structure Blocker where
  code : String
  subject : String := ""
deriving DecidableEq, Repr

/-- The order of `sortedBlockers`: by subject, then by code. -/
def Blocker.le (a b : Blocker) : Prop := a.subject < b.subject ∨ a.subject = b.subject ∧ a.code ≤ b.code

instance : DecidableRel Blocker.le := fun _ _ => inferInstanceAs (Decidable (_ ∨ _))

def sortedBlockers (bs : List Blocker) : List Blocker := bs.insertionSort Blocker.le

structure Decision where
  coverageBasis : String := ""
  validated : Bool := false
  blockers : List Blocker
deriving DecidableEq, Repr

structure Input where
  attributions : List Impact.RouteAttribution := []
  baselineRev : Revision := {}
  patchRev : Revision := {}
  baseline : String := ""
  patch : String := ""
  plan : Plan.DAG := {}
  result : Plan.Evidence := {}
  impacted : List String := []
  workload : List Replay.Step := []
  changes : Impact.Changes := {}

def coreKinds : List String := [kindEnv, kindBehavior, kindLatency, kindConcurrency]

/-- `Legacy`: historical evidence earns no validation. -/
def legacy : Decision := { blockers := [{ code := codeLegacySchema }] }

/-! ### Targets -/

/-- `normURL`: scheme and host in lower case, loopback names as one, default ports dropped. -/
def normURL (lib : Lib) (raw : String) : String :=
  match lib.parseURL (trimSpace raw) with
  | .error _ => trimRight raw '/'
  | .ok u =>
    let scheme := lib.toLower u.scheme
    let host := lib.toLower u.hostname
    let host := if host ∈ ["localhost", "127.0.0.1", "::1"] then "127.0.0.1" else host
    let port := if scheme = "http" ∧ u.port = "80" ∨ scheme = "https" ∧ u.port = "443" then "" else u.port
    let newHost := if port ≠ "" then joinHostPort host port else if contains host ":" then "[" ++ host ++ "]" else host
    trimRight (lib.urlString { u with scheme, host := newHost }) '/'

def blockIf (c : Prop) [Decidable c] (b : Blocker) : List Blocker := if c then [b] else []

def targetBlockers (lib : Lib) (i : Input) : List Blocker :=
  sortedBlockers
    (blockIf (trimSpace i.baseline = "") { code := codeMissingTarget, subject := "baseline" } ++
      blockIf (trimSpace i.patch = "") { code := codeMissingTarget, subject := "patch" } ++
      blockIf (i.baseline ≠ "" ∧ i.patch ≠ "" ∧ normURL lib i.baseline = normURL lib i.patch)
        { code := codeSameTarget, subject := normURL lib i.baseline })

/-! ### Steps -/

/-- `duplicateBlockers`: a kind that occurs twice in the plan or twice in the result. -/
def duplicateBlockers (i : Input) : List Blocker :=
  let planned := i.plan.steps.map (·.kind)
  let executed := i.result.steps.map (·.kind)
  sortedBlockers <| (planned ++ executed).dedup.flatMap fun kind =>
    blockIf (planned.count kind > 1 ∨ executed.count kind > 1) { code := codeDuplicateStep, subject := kind }

/-- `latencyN`: the smallest number of samples on either side of any row, 0 without rows. -/
def latencyN (got : Plan.StepResult) : Int :=
  (got.latency.map fun l => min l.baseline.n l.patch.n).min?.getD 0

/-- `stepOK`: the verdict that each kind of step must have. -/
def stepOK (lib : Lib) (kind : String) (got : Plan.StepResult) : Bool :=
  let v := lib.toLower (trimSpace got.verdict)
  if kind = kindEnv ∨ kind = kindTests then v = verdictPrepared
  else if kind = kindBehavior ∨ kind = kindConcurrency then v = verdictMatch
  else if kind = kindLatency then v = verdictSamples && latencyN got ≥ minLatencyN && !got.latency.any shifted
  else v ∈ [verdictMatch, verdictSamples, verdictPrepared]

/-- What a latency result is blocked by besides its verdict: too few samples, and each shifted row. -/
def latencyBlockers (got : Plan.StepResult) : List Blocker :=
  blockIf (latencyN got < minLatencyN) { code := codeLatencyN, subject := itoa (latencyN got) } ++
    (got.latency.filter shifted).map fun row => { code := codeLatencyShift, subject := row.method ++ " " ++ row.path }

/-- `stepBlockers`: every kind needs a result, and each of its results an accepted verdict. -/
def stepBlockers (lib : Lib) (kinds : List String) (results : List Plan.StepResult) : List Blocker :=
  sortedBlockers <| kinds.flatMap fun kind =>
    let found := results.filter (·.kind = kind)
    (if kind = kindLatency then found.flatMap latencyBlockers else []) ++
      (if found = [] then [{ code := codeStepMissing, subject := kind }]
        else blockIf (∃ s ∈ found, !stepOK lib kind s) { code := codeStepFailed, subject := kind })

/-- The kinds that the plan requires of the program besides the core kinds, each once. -/
def requiredKinds (dag : Plan.DAG) : List String :=
  ((dag.steps.filter fun s => s.required && !s.operator && s.kind ∉ coreKinds).map (·.kind)).reverse.dedup.reverse

def requiredStepBlockers (lib : Lib) (i : Input) : List Blocker :=
  stepBlockers lib (requiredKinds i.plan) i.result.steps

/-! ### Changes and coverage -/

def changeBlockers (i : Input) : List Blocker :=
  sortedBlockers
    ((i.changes.unanalyzed.map fun path => { code := codeUnanalyzedChange, subject := path }) ++
      (if i.changes.bound = [] then [{ code := codeNoFunctionBinding }]
        else blockIf (i.impacted = []) { code := codeNoRuntimeRoute }))

/-- The `METHOD path` labels of the compared steps that both sides answered from a handler. -/
def answered (res : Plan.Evidence) : List String :=
  (res.steps.filter (·.kind = kindBehavior)).flatMap fun s =>
    (s.steps.filter fun d => !(d.baselineStatus = 0 || d.patchStatus = 0 || d.authRejected)).map fun d =>
      d.method ++ " " ++ d.path

/-- `Covered`: some workload step hit an impacted route and was answered on both sides. -/
def covered (lib : Lib) (impacted : List String) (work : List Replay.Step) (res : Plan.Evidence) : Bool :=
  work.any fun st => (st.method ++ " " ++ st.path) ∈ answered res &&
    impacted.any fun route => Impact.routeMatches lib route st.method st.path

def coverageBlockers (lib : Lib) (i : Input) : List Blocker :=
  sortedBlockers <| (i.impacted.filter fun route => !covered lib [route] i.workload i.result).map fun route =>
    { code := codeRouteMissed, subject := route }

/-- `coverageBasis`: inferred as soon as one covered route has only inferred attributions. -/
def coverageBasis (lib : Lib) (i : Input) : String :=
  let provenances := fun route => (i.attributions.filter (·.route = route)).map (·.provenance)
  let observed := fun route =>
    (provenances route).any (· ∈ [Impact.provenanceTraceEntry, Impact.provenanceCodeAttrs])
  let inferred := fun route => (provenances route).any (· = Impact.provenanceTraceEntryCaller)
  let hit := i.impacted.filter fun route => covered lib [route] i.workload i.result
  if hit.any fun route => inferred route && !observed route then coverageInferred
  else if hit.any observed then coverageObserved
  else ""

/-! ### The decision -/

def revisionBlockers (name : String) (rev : Revision) : List Blocker :=
  blockIf (rev.tree = "" ∨ rev.source ≠ sourceBuilt) { code := codeUnverifiedRevision, subject := name }

def blockers (lib : Lib) (i : Input) : List Blocker :=
  blockIf (i.baselineRev.dirty = true) { code := codeDirtyBaseline } ++
    revisionBlockers "baseline" i.baselineRev ++ revisionBlockers "patch" i.patchRev ++
    blockIf (i.baselineRev.tree ≠ "" ∧ i.baselineRev.tree = i.patchRev.tree)
      { code := codeSameTarget, subject := i.baselineRev.tree } ++
    targetBlockers lib i ++
    blockIf (lib.toLower (trimSpace i.result.overall) ≠ verdictMatch)
      { code := codeNotMatch, subject := i.result.overall } ++
    duplicateBlockers i ++ stepBlockers lib coreKinds i.result.steps ++ requiredStepBlockers lib i ++
    changeBlockers i ++ coverageBlockers lib i

/-- `Decide`: every requirement in policy order. -/
def Input.decide (lib : Lib) (i : Input) : Decision :=
  { validated := blockers lib i = [], blockers := blockers lib i, coverageBasis := coverageBasis lib i }

end Validate
end Aquila

import Aquila.Validate

/-! `internal/evidence`: the artifact that records one experiment, and the validation it earns. -/

namespace Aquila.Evidence
open Replay (verdictMatch verdictDiffer verdictIncomplete)

def schemaV3 : String := "aquila.evidence.v3"
def schemaV2 : String := "aquila.evidence.v2"
def schemaV1 : String := "aquila.evidence.v1"
def maxBytes : Nat := 1048576

structure Request where
  method : String
  path : String
  provenance : String := ""
  headers : List String := []
deriving DecidableEq, Repr

structure ImpactSummary where
  runtimeFindings : List Impact.Finding := []
  changes : Impact.Changes := {}
  files : Int := 0
  direct : Int := 0
  likely : Int := 0
  runtime : Int := 0
  unobserved : Int := 0
  changed : List String := []
  directName : List String := []
deriving DecidableEq, Repr

structure Coverage where
  traceCounts : List Impact.RouteTraceCount := []
  attributions : List Impact.RouteAttribution := []
  impacted : List String := []
  exercised : List String := []
  missed : List String := []
  rejected : List String := []
deriving DecidableEq, Repr

/-- One local experiment: its classified changes, executed results and validation decision. The service is
    kept as bytes, since it is cut at a byte. -/
structure Artifact where
  baselineRev : Revision := {}
  patchRev : Revision := {}
  schema : String := schemaV3
  recorded : Time := 0
  baseline : String := ""
  patch : String := ""
  baselineSHA : String := ""
  dirty : Bool := false
  service : List UInt8 := []
  workloadDigest : String := ""
  artifactDigest : String := ""
  workload : List Request := []
  impact : ImpactSummary := {}
  coverage : Option Coverage := none
  plan : Plan.DAG := {}
  result : Plan.Evidence := {}
  validated : Bool := false
  blockers : List Validate.Blocker := []
deriving DecidableEq, Repr

structure Input where
  baselineRev : Revision := {}
  patchRev : Revision := {}
  now : Time := 0
  baseline : String := ""
  patch : String := ""
  service : String := ""
  workload : List Replay.Step := []
  impact : Impact.Report := {}
  plan : Plan.DAG := {}
  result : Plan.Evidence := {}

def requests (w : List Replay.Step) : List Request :=
  w.map fun s => { method := s.method, path := s.path, provenance := s.provenance, headers := s.headerNames }

def summarizeImpact (rep : Impact.Report) : ImpactSummary :=
  { runtimeFindings := rep.runtime
    changes := Impact.classify rep
    files := rep.files.length
    direct := rep.direct.length
    likely := rep.likely.length
    runtime := rep.runtime.length
    unobserved := rep.unobserved.length
    changed := rep.files
    directName := (rep.direct.map (·.name)).filter (· ≠ "") }

/-! ### Coverage -/

def refused (res : Plan.Evidence) : List String :=
  (res.steps.filter (·.kind = Plan.kindBehavior)).flatMap fun s =>
    (s.steps.filter (·.authRejected)).map fun d => d.method ++ " " ++ d.path

/-- By route, then by provenance, then by what the attribution goes through. -/
def attributionLE (a b : Impact.RouteAttribution) : Prop :=
  if a.route ≠ b.route then a.route < b.route
  else if a.provenance ≠ b.provenance then a.provenance < b.provenance
  else a.via ≤ b.via

instance : DecidableRel attributionLE := fun a b => by unfold attributionLE; infer_instance

def hits (lib : Lib) (work : List Request) (route : String) : List Request :=
  work.filter fun r => Impact.routeMatches lib route r.method r.path

def reached (lib : Lib) (work : List Request) (res : Plan.Evidence) (route : String) : Bool :=
  (hits lib work route).any fun r => Validate.covered lib [route] [{ method := r.method, path := r.path }] res

def rejected (lib : Lib) (work : List Request) (res : Plan.Evidence) (route : String) : Bool :=
  !reached lib work res route && (hits lib work route).any fun r => (r.method ++ " " ++ r.path) ∈ refused res

/-- `coverageOf`: nothing when the change has no runtime route. -/
def coverageOf (lib : Lib) (rep : Impact.Report) (work : List Request) (res : Plan.Evidence) : Option Coverage :=
  let impacted := Impact.runtimeRoutes lib rep
  if impacted = [] then none
  else some
    { impacted
      traceCounts := rep.routeTraceCounts
      attributions := (((rep.runtime.filter (·.route ≠ "")).map fun f =>
        { route := f.route, provenance := f.provenance, via := f.via }).dedup).insertionSort attributionLE
      exercised := impacted.filter (reached lib work res)
      missed := impacted.filter fun route => !reached lib work res route
      rejected := impacted.filter (rejected lib work res) }

/-! ### Artifacts -/

/-- What the policy reads of an artifact. -/
def Artifact.policyInput (a : Artifact) : Validate.Input :=
  { baselineRev := a.baselineRev
    patchRev := a.patchRev
    baseline := a.baseline
    patch := a.patch
    plan := a.plan
    result := a.result
    impacted := (a.coverage.map (·.impacted)).getD []
    attributions := (a.coverage.map (·.attributions)).getD []
    changes := a.impact.changes
    workload := a.workload.map fun r => { method := r.method, path := r.path } }

def Artifact.decision (lib : Lib) (a : Artifact) : Validate.Decision :=
  if a.schema = schemaV1 then Validate.legacy
  else if a.schema = schemaV2 then
    { blockers :=
        [{ code := Validate.codeUnverifiedRevision, subject := "baseline" },
          { code := Validate.codeUnverifiedRevision, subject := "patch" }] }
  else a.policyInput.decide lib

/-- One line of the text that `digestWorkload` hashes. -/
def requestLine (r : Request) : String :=
  r.method ++ " " ++ r.path ++ " " ++ r.provenance ++
    (if r.headers = [] then "" else " h=" ++ join "," r.headers) ++ "\n"

def digestWorkload (lib : Lib) (rs : List Request) : String := lib.sha256 (join "" (rs.map requestLine))

def clipService (s : String) : List UInt8 := (bytes (trimSpace s)).take 128

/-- `digestArtifact`, over the JSON text that `marshal` gives an artifact. -/
def digestArtifact (lib : Lib) (marshal : Artifact → Option String) (a : Artifact) : String :=
  match marshal { a with artifactDigest := "" } with
  | some raw => lib.sha256 raw
  | none => ""

/-- The artifact that `Build` grades. `clock` is read when the input has no time. -/
def assemble (lib : Lib) (clock : Time) (i : Input) : Artifact :=
  let now := i.now.truncate second
  { schema := schemaV3
    recorded := if now.isZero then clock.truncate second else now
    baseline := i.baseline
    patch := i.patch
    baselineSHA := i.baselineRev.commit
    baselineRev := i.baselineRev
    patchRev := i.patchRev
    dirty := i.patchRev.dirty
    service := clipService i.service
    workload := requests i.workload
    impact := summarizeImpact i.impact
    plan := i.plan
    result := i.result
    coverage := coverageOf lib i.impact (requests i.workload) i.result }

/-- `Build`: validated is what the decision on the assembled artifact says. -/
def build (lib : Lib) (marshal : Artifact → Option String) (clock : Time) (i : Input) : Artifact :=
  let a := assemble lib clock i
  let d := a.decision lib
  let a := { a with validated := d.validated, blockers := d.blockers }
  let a := { a with workloadDigest := digestWorkload lib a.workload }
  { a with artifactDigest := digestArtifact lib marshal a }

/-! ### Checking -/

/-- `Verify`: schema, verdict and content integrity. -/
def verify (lib : Lib) (marshal : Artifact → Option String) (a : Artifact) : Option String :=
  let verdict := lib.toLower (trimSpace a.result.overall)
  if a.schema ∉ [schemaV1, schemaV2, schemaV3] then some ("evidence: unsupported schema " ++ lib.quote a.schema)
  else if verdict ∈ ["pass", "validated", "ok", "fail", "failed", "success"] then
    some ("evidence: overall " ++ lib.quote a.result.overall ++ " is not a legal verdict")
  else if verdict = "" then some "evidence: missing overall"
  else if verdict ∉ [verdictMatch, verdictDiffer, verdictIncomplete] then
    some ("evidence: unknown overall " ++ lib.quote a.result.overall)
  else if (a.schema ≠ schemaV1 ∨ a.workloadDigest ≠ "") ∧ a.workloadDigest ≠ digestWorkload lib a.workload then
    some "evidence: workload digest mismatch"
  else if (a.schema ≠ schemaV1 ∨ a.artifactDigest ≠ "") ∧ a.artifactDigest ≠ digestArtifact lib marshal a then
    some "evidence: artifact digest mismatch"
  else none

/-- `Check`: current-schema evidence whose claims agree with the policy. -/
def check (lib : Lib) (marshal : Artifact → Option String) (a : Artifact) : Option String :=
  match verify lib marshal a with
  | some e => some e
  | none =>
    if a.schema ≠ schemaV3 then some ("evidence: writes require schema " ++ schemaV3)
    else
      let d := a.decision lib
      if a.validated ≠ d.validated then some "evidence: validated is unearned"
      else if a.blockers ≠ d.blockers then some "evidence: blockers do not match decision"
      else none

/-! ### Texts -/

/-- `encoding/json` on artifacts: `Marshal`, `MarshalIndent` with two blanks, and a `Decoder` that refuses unknown
    fields. -/
structure Encoding where
  marshal : Artifact → Option String
  marshalIndent : Artifact → Except String String
  unmarshal : List UInt8 → Except String Artifact

/-- `Marshal`: a checked artifact as an indented text. -/
def marshal (lib : Lib) (enc : Encoding) (a : Artifact) : Except String (List UInt8) :=
  match check lib enc.marshal a with
  | some e => .error e
  | none =>
    match enc.marshalIndent a with
    | .error e => .error ("evidence: " ++ e)
    | .ok text =>
      let raw := bytes (text ++ "\n")
      if raw.length > maxBytes then .error "evidence: artifact too large" else .ok raw

/-- `Decode`: evidence of the current schema is checked, older evidence verified. -/
def decode (lib : Lib) (enc : Encoding) (raw : List UInt8) : Except String Artifact :=
  if raw.length = 0 then .error "evidence: empty artifact"
  else if raw.length > maxBytes then .error "evidence: artifact too large"
  else match enc.unmarshal raw with
    | .error e => .error ("evidence: " ++ e)
    | .ok a =>
      match (if a.schema = schemaV3 then check lib enc.marshal a else verify lib enc.marshal a) with
      | some e => .error e
      | none => .ok a

end Aquila.Evidence

import Aquila.Replay

/-! `internal/plan`: the experiment DAG and its execution against a baseline and a patch gateway. -/

namespace Aquila

/-! ### The fault proxy -/

namespace Fault

/-- An injected delay and status. Status 0 means that the request is proxied. -/
structure Spec where
  delay : Duration := 0
  status : Int := 0
deriving DecidableEq, Repr

def maxDelay : Duration := 30 * second

/-- `Handler`: the text of the error, or `none` when there is a proxy. -/
def handler (lib : Lib) (target : String) (spec : Spec) : Option String :=
  let raw := trimSpace target
  if raw = "" then some "fault: empty target"
  else
    let raw := if contains raw "://" then raw else "http://" ++ raw
    match lib.parseURL raw with
    | .error e => some ("fault: target: " ++ e)
    | .ok u =>
      if u.scheme ≠ "http" ∧ u.scheme ≠ "https" then some "fault: target must be http or https"
      else if u.host = "" then some "fault: target missing host"
      else if u.user.isSome then some "fault: target must not include userinfo"
      else if spec.delay < 0 then some "fault: delay must be >= 0"
      else if spec.delay > maxDelay then some "fault: delay exceeds 30s"
      else if spec.status < 0 ∨ spec.status > 599 then some "fault: status out of range"
      else (Netguard.checkURL lib (lib.urlString u)).map ("fault: " ++ ·)

/-- What a client gets of a proxy that injects a status. `WriteHeader` panics below 100, and sends an informational
    status, unless it is 101, before the one of the body. -/
def injected (status : Int) : Replay.Reply :=
  if status < 100 then .failed "EOF" 1
  else .response (if status < 200 ∧ status ≠ 101 then 200 else status) (.ok (bytes "\x7b\"error\":\"injected\"\x7d")) 1

end Fault

namespace Plan
open Replay

/-! ### The DAG -/

def kindEnv : String := "env"
def kindBehavior : String := "behavior"
def kindLatency : String := "latency"
def kindConcurrency : String := "concurrency"
def kindTests : String := "tests"
def kindFaultStatus : String := "fault_status"

def defaultConcurrencyN : Int := 8

def verdictSkipped : String := "skipped"
def verdictSamples : String := "samples"
def verdictPrepared : String := "prepared"

structure Step where
  id : String
  kind : String
  required : Bool := false
  operator : Bool := false
  n : Int := 0
  status : Int := 0
  dependsOn : List String := []
  reason : String := ""
deriving DecidableEq, Repr

structure DAG where
  steps : List Step := []
  notes : List String := []
  module : String := ""
  testPackages : List String := []
  healthPath : String := ""
deriving DecidableEq, Repr

def hasKind (dag : DAG) (kind : String) : Bool := dag.steps.any fun s => s.kind = kind

/-- `replayRepeats`: how often the workload is replayed, and whether a step needs it. -/
def replayRepeats (dag : DAG) : Int × Bool :=
  dag.steps.foldl (fun ((n, need) : Int × Bool) s =>
    if s.operator then (n, need)
    else if s.kind = kindBehavior then (n, true)
    else if s.kind = kindLatency then (if s.n > n then s.n else n, true)
    else (n, need)) (1, false)

def concurrencyN (dag : DAG) : Int × Bool :=
  dag.steps.foldl (fun ((n, need) : Int × Bool) s =>
    if s.operator || s.kind ≠ kindConcurrency then (n, need)
    else (if s.n > (0 : Int) then s.n else n, true)) (defaultConcurrencyN, false)

/-! ### Evidence -/

/-- The result of one step. A note may hold the output of `go test` or of a gateway, so notes are bytes. -/
structure StepResult where
  id : String := ""
  kind : String := ""
  verdict : String := ""
  notes : List (List UInt8) := []
  latency : List StepLatency := []
  steps : List Delta := []
deriving DecidableEq, Repr

structure Evidence where
  overall : String := ""
  steps : List StepResult := []
  notes : List String := []
deriving DecidableEq, Repr

/-- What `go test` comes to: success, a done context, failing tests with what they wrote, or another error. -/
inductive TestRun where
  | passed
  | canceled
  | failed (output : List UInt8)
  | error (output err : List UInt8)
deriving DecidableEq, Repr

inductive Side where
  | baseline
  | patch
deriving DecidableEq, Repr

/-- Everything outside the program that an execution meets: the health probes, the gateways in the
    replays and in the bursts, the context, `go test`, and the listener and gateways of the fault probe at
    each index of the plan. -/
structure World where
  health : (target path : String) → Except (List UInt8) Int
  replay : Side → Gateway
  replayCtx : Side → Context
  burst : Side → Gateway
  burstCtx : Side → Context
  goTest : (module : String) → (packages : List String) → TestRun
  listen : Nat → Except String String
  inject : Nat → Gateway

/-! ### Steps -/

def routePath (p : String) : String := cutBefore p '?'

/-- `compareFirst`: only the first repetition is compared. -/
def compareFirst (lib : Lib) (base patch : List Result) : Report :=
  match base, patch with
  | b :: _, p :: _ => compare lib b p
  | _, _ => { verdict := verdictIncomplete }

def hasSamples (lat : List StepLatency) : Bool := lat.any fun s => s.baseline.n > 0 || s.patch.n > 0

def burstFailed (o : Observation) : Bool := o.err ≠ [] || o.status ≥ 500 || o.status = 0

/-- `burstErrors`: the failed observations and all observations. -/
def burstErrors (runs : List Result) : Nat × Nat :=
  let obs := runs.flatMap (·.steps)
  (obs.countP burstFailed, obs.length)

/-- `compareBurst`: the numbers of failed observations must be the same. -/
def compareBurst (base patch : List Result) : StepResult :=
  let out : StepResult := { id := "concurrency", kind := kindConcurrency }
  if base = [] ∨ patch = [] then { out with verdict := verdictIncomplete, notes := ["no samples"] }
  else
    let (be, bn) := burstErrors base
    let (pe, pn) := burstErrors patch
    if bn = 0 ∨ pn = 0 then { out with verdict := verdictIncomplete, notes := ["no observations"] }
    else
      let note := "baseline_errors=" ++ itoa be ++ "/" ++ itoa bn ++ " patch_errors=" ++ itoa pe ++ "/" ++ itoa pn
      if pe > be then
        { out with verdict := verdictDiffer, notes := [note, "patch errors more under concurrency"] }
      else if pe < be then
        { out with verdict := verdictDiffer, notes := [note, "patch errors less under concurrency"] }
      else { out with verdict := verdictMatch, notes := [note] }

/-- `clipBytes`: cut at a byte. -/
def clipBytes (raw : List UInt8) (n : Nat) : List UInt8 :=
  let s := trimSpaceBytes raw
  if s.length ≤ n then s else s.take n

def runTests (goTest : String → List String → TestRun) (dag : DAG) : StepResult :=
  let out : StepResult := { id := "tests", kind := kindTests }
  if trimSpace dag.module = "" ∨ dag.testPackages = [] then
    { out with verdict := verdictIncomplete, notes := ["no test packages"] }
  else if dag.testPackages.any fun p => (p ≠ "." && !hasPrefix p "./") || contains p ".." then
    { out with verdict := verdictIncomplete, notes := ["invalid package"] }
  else match goTest dag.module dag.testPackages with
    | .canceled => { out with verdict := verdictIncomplete, notes := ["tests canceled"] }
    | .failed output => { out with verdict := verdictDiffer, notes := [clipBytes output 512] }
    | .error output err =>
      let note := clipBytes output 512
      { out with verdict := verdictIncomplete, notes := [if note ≠ [] then note else err] }
    | .passed => { out with verdict := verdictPrepared, notes := ["go test"] }

/-- `probeStep`: the first step that is safe to send again, else the first one. -/
def probeStep (lib : Lib) (w : List Replay.Step) : Replay.Step :=
  match w.find? fun s => lib.toUpper (trimSpace s.method) ∈ ["GET", "HEAD", "OPTIONS"] with
  | some s => s
  | none => w.headD { method := "GET", path := defaultHealthPath }

/-- `probeFault` of the step at index `i` of the plan. -/
def probeFault (lib : Lib) (world : World) (i : Nat) (s : Step) (base patch : String) (w : List Replay.Step) :
    StepResult :=
  let out : StepResult := { id := s.id, kind := s.kind }
  let incomplete := fun note : String => { out with verdict := verdictIncomplete, notes := [note] }
  let status := if s.status < 1 then 502 else s.status
  let step := probeStep lib w
  match Fault.handler lib patch { status } with
  | some e => incomplete e
  | none =>
    match world.listen i with
    | .error e => incomplete e
    | .ok addr =>
      match run lib (world.inject i) ("http://" ++ addr) [step] 0, run lib (world.inject i) base [step] 0 with
      | .error e, _ => incomplete e
      | .ok _, .error e => incomplete e
      | .ok inj, .ok baseRun =>
        if (inj.steps.head?.map (·.status)) ≠ some status then
          incomplete "inject did not return the requested status"
        else if baseRun.steps.head?.all (fun o => o.err ≠ [] || o.status = status) then
          incomplete "baseline also failed; inject is not distinguishable"
        else { out with verdict := verdictPrepared, notes := [bytes ("one-sided " ++ itoa status)] }

/-! ### Execution -/

structure ExecData where
  envErr : Option (List UInt8) := none
  base : List Result := []
  patch : List Result := []
  baseBurst : List Result := []
  patchBurst : List Result := []
  tests : StepResult := {}
  fault : List (String × StepResult) := []

/-- `probeEnv`: the first env step that is not the operator's probes both gateways. -/
def probeEnv (lib : Lib) (world : World) (dag : DAG) (base patch : String) : Option (List UInt8) :=
  if dag.steps.any fun s => s.kind = kindEnv && !s.operator then
    healthzPath lib world.health base patch dag.healthPath
  else none

def deltaNote (d : Delta) : Option (List UInt8) :=
  if d.notes = [] then none
  else
    let note := bytes (d.method ++ " " ++ routePath d.path ++ " " ++ itoa d.baselineStatus ++ "/" ++
      itoa d.patchStatus ++ " ") ++
      (bytes ",").intercalate d.notes
    some (if d.authRejected then note ++ bytes ": handler did not run; check workload headers" else note)

def shiftNote (lib : Lib) (l : StepLatency) : Option String :=
  if shifted l then
    some ("latency_shift " ++ l.method ++ " " ++ routePath l.path ++ " median " ++ lib.formatMs l.baseline.medNS ++
      "ms -> " ++ lib.formatMs l.patch.medNS ++ "ms (> " ++ itoa shiftRatio ++ "x and >= " ++
      itoa (shiftMinNS / 1000000) ++ "ms slower); blocks validated")
  else none

def evalStep (lib : Lib) (s : Step) (data : ExecData) : StepResult :=
  let out : StepResult := { id := s.id, kind := s.kind }
  if s.kind = kindEnv ∧ !s.operator then
    match data.envErr with
    | some e => { out with verdict := verdictIncomplete, notes := [e] }
    | none => { out with verdict := verdictPrepared, notes := ["healthz"] }
  else if s.operator then { out with verdict := verdictSkipped, notes := ["operator"] }
  else if s.kind = kindBehavior then
    let rep := compareFirst lib data.base data.patch
    { out with verdict := rep.verdict, steps := rep.steps, notes := rep.steps.filterMap deltaNote }
  else if s.kind = kindLatency then
    if data.base = [] ∨ data.patch = [] then { out with verdict := verdictIncomplete, notes := ["no samples"] }
    else
      let lat := Replay.latency data.base data.patch
      if !hasSamples lat then
        { out with latency := lat, verdict := verdictIncomplete, notes := ["no successful samples"] }
      else { out with latency := lat, verdict := verdictSamples, notes := (lat.filterMap (shiftNote lib)).map bytes }
  else if s.kind = kindConcurrency then { compareBurst data.baseBurst data.patchBurst with id := s.id }
  else if s.kind = kindTests then { data.tests with id := s.id, kind := kindTests }
  else if s.kind = kindFaultStatus then
    -- a later probe with the same id replaces an earlier one
    match data.fault.reverse.lookup s.id with
    | some got => got
    | none => { out with verdict := verdictIncomplete, notes := ["fault not executed"] }
  else { out with verdict := verdictIncomplete, notes := ["unknown step"] }

/-- `overall`: match, differ or incomplete. An env step that is incomplete decides at once. -/
def overall (steps : List StepResult) : String :=
  if steps.any fun s => s.kind = kindEnv && s.verdict = verdictIncomplete then verdictIncomplete
  else
    let executed := steps.filter fun s => s.verdict ≠ verdictSkipped && s.kind ≠ kindEnv && s.kind ≠ kindFaultStatus
    if executed = [] then verdictIncomplete
    else if executed.any fun s => s.verdict = verdictIncomplete then verdictIncomplete
    else if executed.any fun s => s.kind ≠ kindLatency && s.verdict = verdictDiffer then verdictDiffer
    else verdictMatch

/-- The replays of both sides, the baseline's first, when they are needed. -/
def bothSides (need : Bool) (runs : Side → Except String (List Result)) :
    Except String (List Result × List Result) :=
  if need then do return (← runs .baseline, ← runs .patch) else .ok ([], [])

/-- What the steps are evaluated against: the env probe, the replays, and the probes of tests and faults. -/
def execData (lib : Lib) (world : World) (dag : DAG) (base patch : String) (w : List Replay.Step)
    (replays bursts : List Result × List Result) : ExecData :=
  { envErr := probeEnv lib world dag base patch
    base := replays.1
    patch := replays.2
    baseBurst := bursts.1
    patchBurst := bursts.2
    tests := if hasKind dag kindTests then runTests world.goTest dag else {}
    fault := dag.steps.zipIdx.filterMap fun (s, i) =>
      if s.kind = kindFaultStatus ∧ !s.operator then some (s.id, probeFault lib world i s base patch w) else none }

def evidence (lib : Lib) (dag : DAG) (data : ExecData) : Evidence :=
  let steps := dag.steps.map (evalStep lib · data)
  { overall := overall steps, steps, notes := dag.notes }

def execute (lib : Lib) (world : World) (dag : DAG) (base patch : String) (w : List Replay.Step) :
    Except String Evidence :=
  match checkTarget lib base, checkTarget lib patch with
  | some e, _ => .error e
  | none, some e => .error e
  | none, none =>
    let (n, needReplay) := replayRepeats dag
    let (cn, needBurst) := concurrencyN dag
    if (needReplay || needBurst) && w.isEmpty then .error "plan: empty workload"
    else
      let healthy := (probeEnv lib world dag base patch).isNone
      let target := fun | Side.baseline => base | Side.patch => patch
      do
        let replays ← bothSides (healthy && needReplay) fun side =>
          repeatRuns lib (world.replay side) (world.replayCtx side) (target side) w n
        let bursts ← bothSides (healthy && needBurst) fun side =>
          Replay.burst lib (world.burst side) (world.burstCtx side) (target side) w cn
        return evidence lib dag (execData lib world dag base patch w replays bursts)

end Plan
end Aquila

import Aquila.Net

/-! `internal/replay`: a workload is sent to a gateway, and two replays of it are compared. -/

namespace Aquila.Replay

/-! ### Workloads and replays -/

structure Step where
  method : String
  path : String
  body : List UInt8 := []
  headers : List (String × List String) := []
  provenance : String := ""
  service : String := ""
deriving DecidableEq, Repr

def Step.headerNames (s : Step) : List String := (s.headers.map (·.1)).insertionSort (· ≤ ·)

/-- What was observed of one request. The text of an error may hold bytes of the response. -/
structure Observation where
  method : String
  path : String
  status : Int := 0
  body : List UInt8 := []
  durationNS : Int := 0
  err : List UInt8 := []
deriving DecidableEq, Repr

structure Result where
  target : String
  steps : List Observation
deriving DecidableEq, Repr

def maxResponse : Nat := 64 * 1024

/-- What comes of sending one request: no request could be built, the client failed, or a response came
    with a status and a body, which may fail to be read. `ns` is the time the client took. -/
inductive Reply where
  | badRequest (err : List UInt8)
  | failed (err : List UInt8) (ns : Int)
  | response (status : Int) (body : Except (List UInt8) (List UInt8)) (ns : Int)

/-- A gateway: its reply to the request at an index of the workload, in each repetition. -/
abbrev Gateway := (target : String) → (repetition index : Nat) → Step → Reply

/-- `ctx.Err()` before each repetition. -/
abbrev Context := Nat → Option String

/-- `parseTarget`: the scheme and host of a target, or the text of the error. -/
def parseTarget (lib : Lib) (raw : String) : Except String String :=
  let raw := trimSpace raw
  if raw = "" then .error "replay: empty target"
  else
    let raw := if contains raw "://" then raw else "http://" ++ raw
    match lib.parseURL raw with
    | .error e => .error ("replay: target: " ++ e)
    | .ok u =>
      if u.scheme ≠ "http" ∧ u.scheme ≠ "https" then .error "replay: target must be http or https"
      else if u.host = "" then .error "replay: target missing host"
      else if u.user.isSome then .error "replay: target must not include userinfo"
      else match Netguard.checkURL lib (lib.urlString u) with
        | some e => .error ("replay: " ++ e)
        | none => .ok (trimRight (lib.urlString { u with path := "", rawQuery := "", fragment := "" }) '/')

/-- `runStep`: the observation has the method and path of the step. -/
def runStep (gw : Gateway) (base : String) (rep index : Nat) (st : Step) : Observation :=
  let obs : Observation := { method := st.method, path := st.path }
  match gw base rep index st with
  | .badRequest e => { obs with err := e }
  | .failed e ns => { obs with durationNS := int64 ns, err := e }
  | .response status body ns =>
    let obs := { obs with durationNS := int64 ns, status }
    match body with
    | .error e => { obs with err := e }
    | .ok raw => if raw.length > maxResponse then { obs with err := "response too large" } else { obs with body := raw }

/-- `Run`, in repetition `rep`. -/
def run (lib : Lib) (gw : Gateway) (target : String) (w : List Step) (rep : Nat) : Except String Result :=
  match parseTarget lib target with
  | .error e => .error e
  | .ok base =>
    if w = [] then .error "replay: empty workload"
    else .ok { target := base, steps := w.zipIdx.map fun (st, i) => runStep gw base rep i st }

def maxRepeats : Int := 100

def clipRepeats (n : Int) : Except String Int :=
  if n < 1 then .error "replay: n must be >= 1"
  else if n > maxRepeats then .error ("replay: n exceeds " ++ itoa maxRepeats)
  else .ok n

/-- One repetition, which does not start once the context is done. -/
def repetition (lib : Lib) (gw : Gateway) (ctx : Context) (target : String) (w : List Step) (rep : Nat) :
    Except String Result :=
  match ctx rep with
  | some e => .error e
  | none => run lib gw target w rep

/-- `Repeat`: the workload `n` times, one after the other. -/
def repeatRuns (lib : Lib) (gw : Gateway) (ctx : Context) (target : String) (w : List Step) (n : Int) :
    Except String (List Result) :=
  match clipRepeats n with
  | .error e => .error e
  | .ok n => (List.range n.toNat).mapM (repetition lib gw ctx target w)

def maxBurst : Int := 32

def checkTarget (lib : Lib) (raw : String) : Option String :=
  match parseTarget lib raw with
  | .error e => some e
  | .ok _ => none

/-- `Burst`: the workload `n` times in parallel, each in its own slot. The first error in the order of the
    slots stands for the first one in time. -/
def burst (lib : Lib) (gw : Gateway) (ctx : Context) (target : String) (w : List Step) (n : Int) :
    Except String (List Result) :=
  if n < 1 then .error "replay: n must be >= 1"
  else if n > maxBurst then .error ("replay: n exceeds " ++ itoa maxBurst)
  else match checkTarget lib target with
    | some e => .error e
    | none =>
      if w = [] then .error "replay: empty workload"
      else (List.range n.toNat).mapM (repetition lib gw ctx target w)

/-! ### Health -/

def defaultHealthPath : String := "/healthz"

def safePath (path : String) : Bool :=
  hasPrefix path "/" && !contains path ".." && !contains path "\\" && !contains path "@" &&
    !containsAny path "\x7b\x7d*" && !contains path "://"

def safeReplay (method path : String) : Bool :=
  method ∈ ["GET", "HEAD", "OPTIONS"] && safePath path

/-- `oneHealthz`: `probe` is what the GET returns, a transport error or a status. -/
def oneHealthz (lib : Lib) (probe : String → String → Except (List UInt8) Int) (target path : String) :
    Option (List UInt8) :=
  match parseTarget lib target with
  | .error e => some e
  | .ok base =>
    match probe base path with
    | .error e => some e
    | .ok status => if status < 200 ∨ status > 299 then some (bytes ("status " ++ itoa status)) else none

/-- `HealthzPath`: the text of the error, or `none` when both gateways answer with a 2xx status. -/
def healthzPath (lib : Lib) (probe : String → String → Except (List UInt8) Int) (baseline patch path : String) :
    Option (List UInt8) :=
  let path := if path = "" then defaultHealthPath else path
  if !safeReplay "GET" path then some (bytes ("replay: health path " ++ lib.quote path ++ " is not a local GET path"))
  else match oneHealthz lib probe baseline path with
    | some e => some (bytes ("replay: baseline GET " ++ path ++ ": ") ++ e)
    | none =>
      match oneHealthz lib probe patch path with
      | some e => some (bytes ("replay: patch GET " ++ path ++ ": ") ++ e)
      | none => none

/-! ### Comparing -/

def verdictMatch : String := "match"
def verdictDiffer : String := "differ"
def verdictIncomplete : String := "incomplete"
def noteAuthRejected : String := "auth_rejected"

structure Delta where
  method : String
  path : String
  status : String
  baselineStatus : Int := 0
  patchStatus : Int := 0
  notes : List (List UInt8) := []
deriving DecidableEq, Repr

def Delta.authRejected (d : Delta) : Bool := d.notes.any (· = bytes noteAuthRejected)

def authStatus (code : Int) : Bool := code = 401 || code = 403

structure Report where
  verdict : String
  steps : List Delta := []
deriving DecidableEq, Repr

def volatileKeys : List String :=
  ["id", "timestamp", "request_id", "trace_id", "span_id", "created_at", "updated_at", "checkout_id"]

mutual

/-- `stripVolatile`: the document without its volatile keys, at every depth. -/
def stripVolatile : JSON → JSON
  | .obj fields => .obj (stripFields fields)
  | .arr xs => .arr (stripList xs)
  | v => v

def stripList : List JSON → List JSON
  | [] => []
  | v :: vs => stripVolatile v :: stripList vs

def stripFields : List (String × JSON) → List (String × JSON)
  | [] => []
  | (k, v) :: rest => if k ∈ volatileKeys then stripFields rest else (k, stripVolatile v) :: stripFields rest

end

mutual

def deepEqual : JSON → JSON → Bool
  | .null, .null => true
  | .bool a, .bool b => a = b
  | .num a, .num b => a = b
  | .str a, .str b => a = b
  | .arr a, .arr b => deepEqualList a b
  | .obj a, .obj b => a.length = b.length && deepEqualFields a b
  | _, _ => false

def deepEqualList : List JSON → List JSON → Bool
  | [], [] => true
  | a :: as, b :: bs => deepEqual a b && deepEqualList as bs
  | _, _ => false

/-- Every field of the first object is in the second, with an equal value. -/
def deepEqualFields : List (String × JSON) → List (String × JSON) → Bool
  | [], _ => true
  | (k, v) :: rest, fields =>
    (match fields.lookup k with
      | some w => deepEqual v w
      | none => false) && deepEqualFields rest fields

end

def decodeJSON (lib : Lib) (raw : List UInt8) : Option JSON :=
  let raw := trimSpaceBytes raw
  if raw = [] then none else lib.unmarshal raw

/-- `jsonNotes`: how two bodies differ, nothing when they are equal up to volatile keys. -/
def jsonNotes (lib : Lib) (a b : List UInt8) : List String :=
  match decodeJSON lib a, decodeJSON lib b with
  | none, none => if trimSpaceBytes a = trimSpaceBytes b then [] else ["opaque body"]
  | some va, some vb => if deepEqual (stripVolatile va) (stripVolatile vb) then [] else ["json"]
  | _, _ => ["json vs opaque"]

def compareObs (lib : Lib) (a b : Observation) : Delta :=
  let d : Delta := { method := a.method, path := a.path, status := verdictMatch }
  if a.path ≠ b.path ∨ a.method ≠ b.method then
    { d with status := verdictIncomplete, notes := ["step mismatch"] }
  else if a.err ≠ [] ∨ b.err ≠ [] then
    { d with
      status := verdictIncomplete
      notes := (if a.err ≠ [] then [bytes "error:baseline:" ++ a.err] else []) ++
        (if b.err ≠ [] then [bytes "error:patch:" ++ b.err] else []) }
  else
    let d := { d with baselineStatus := a.status, patchStatus := b.status }
    if authStatus a.status && authStatus b.status then
      { d with status := verdictIncomplete, notes := [noteAuthRejected] }
    else
      let d := if a.status ≠ b.status then { d with status := verdictDiffer, notes := ["status"] } else d
      let notes := jsonNotes lib a.body b.body
      if notes ≠ [] then { d with status := verdictDiffer, notes := d.notes ++ notes.map bytes } else d

/-- `Compare`: match, differ, or incomplete. -/
def compare (lib : Lib) (base patch : Result) : Report :=
  let steps := List.zipWith (compareObs lib) base.steps patch.steps
  let incomplete := base.steps.length ≠ patch.steps.length ||
    steps.any fun d => d.notes.any ((bytes "error:").isPrefixOf ·) || d.status = verdictIncomplete
  let differ := steps.any fun d => d.status = verdictDiffer
  { verdict := if incomplete then verdictIncomplete else if differ then verdictDiffer else verdictMatch
    steps }

/-! ### Latency -/

def shiftRatio : Int := 2
def shiftMinNS : Int := 5000000
def minPercentileN : Nat := 20

structure Summary where
  n : Int := 0
  minNS : Int := 0
  medNS : Int := 0
  p95NS : Int := 0
  p99NS : Int := 0
  hasP95 : Bool := false
  hasP99 : Bool := false
deriving DecidableEq, Repr

structure StepLatency where
  method : String := ""
  path : String := ""
  baseline : Summary := {}
  patch : Summary := {}
deriving DecidableEq, Repr

/-- `Shifted`: the patch median is more than twice the baseline's and at least 5 ms slower. -/
def shifted (l : StepLatency) : Bool :=
  if l.baseline.n = 0 ∨ l.patch.n = 0 then false
  else
    let b := l.baseline.medNS
    let p := l.patch.medNS
    p > int64 (shiftRatio * b) && int64 (p - b) ≥ shiftMinNS

/-- `rank`, at `num / den` per cent. The product with the length is taken exactly, as the `float64` one is
    up to the `maxRepeats` samples there can be. -/
def rank (sorted : List Int) (num den : Nat) : Int :=
  sorted.getD (min ((num * sorted.length + den - 1) / den - 1) (sorted.length - 1)) 0

def summarize (samples : List Int) : Summary :=
  if samples = [] then {}
  else
    let cp := samples.insertionSort (· ≤ ·)
    let out : Summary := { n := samples.length, minNS := cp.headD 0, medNS := rank cp 50 100 }
    if samples.length ≥ minPercentileN then
      { out with p95NS := rank cp 95 100, p99NS := rank cp 99 100, hasP95 := true, hasP99 := true }
    else out

/-- A repetition counts when it has no error, a positive status and a positive duration. -/
def Observation.successful (o : Observation) : Bool := !(o.err ≠ [] || o.status ≤ 0 || o.durationNS ≤ 0)

/-- `successfulDurations` of the step at an index. -/
def successfulDurations (runs : List Result) (step : Nat) : List Int :=
  runs.filterMap fun r => (r.steps[step]?).bind fun s => if s.successful then some s.durationNS else none

/-- `Latency`: one row for each step of the shorter first run. -/
def latency (base patch : List Result) : List StepLatency :=
  let firstLen := fun (runs : List Result) => (runs.head?.map fun r => r.steps.length).getD 0
  let n := if patch ≠ [] ∧ firstLen patch < firstLen base then firstLen patch else firstLen base
  (List.range n).map fun i =>
    let first := base.head?.bind fun r => r.steps[i]?
    { method := (first.map (·.method)).getD ""
      path := (first.map (·.path)).getD ""
      baseline := summarize (successfulDurations base i)
      patch := summarize (successfulDurations patch i) }

end Aquila.Replay

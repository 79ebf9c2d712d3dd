import Aquila.Jobs.Job

/-! `internal/jobs`: what a job must satisfy to be created, which jobs exclude each other, and which ready
    task a worker gets. -/

namespace Aquila.Jobs

/-! ### Building a job -/

def maxChanges : Nat := 500
def maxChangeBytes : Nat := 512
def maxSteps : Nat := 20
def maxBody : Nat := 8 * 1024
def maxServiceName : Nat := 128

structure CreateOpts where
  baselineRev : Revision := {}
  patchRev : Revision := {}
  baseline : String
  patch : String
  service : String := ""
  deadline : Time := 0
  workload : List Replay.Step
  plan : Plan.DAG
  impacted : List String := []
  changes : Impact.Changes := {}

/-- The clock readings of one `Create`: for the deadline check, for the creation time, and for the expiry
    pass. -/
structure CreateClock where
  validate : Time
  build : Time
  expire : Time

def clipService (s : String) : List UInt8 := (bytes (trimSpace s)).take maxServiceName

def forbiddenControl : String := "\r\n\x00"

def checkChanges (name : String) (entries : List String) : Option String :=
  if entries.length > maxChanges then some ("jobs: changes." ++ name ++ " exceeds " ++ itoa maxChanges ++ " entries")
  else entries.zipIdx.findSome? fun (value, i) =>
    if byteLen value > maxChangeBytes then
      some ("jobs: changes." ++ name ++ "[" ++ itoa i ++ "] exceeds " ++ itoa maxChangeBytes ++ " bytes")
    else if containsAny value forbiddenControl then
      some ("jobs: changes." ++ name ++ "[" ++ itoa i ++ "] contains a forbidden control character")
    else none

def httpURL (s : String) : Bool := hasPrefix s "http://" || hasPrefix s "https://"

/-- The checks of `validateCreate` after those of the changes. -/
def checkOpts (lib : Lib) (now : Time) (opts : CreateOpts) : Option String :=
  if trimSpace opts.baseline = "" ∨ trimSpace opts.patch = "" then some "jobs: baseline and patch are required"
  else if !httpURL opts.baseline then some "jobs: baseline must be http or https"
  else if !httpURL opts.patch then some "jobs: patch must be http or https"
  else match Netguard.checkURL lib opts.baseline, Netguard.checkURL lib opts.patch with
    | some e, _ => some ("jobs: baseline: " ++ e)
    | none, some e => some ("jobs: patch: " ++ e)
    | none, none =>
      if opts.plan.steps = [] then some "jobs: empty plan"
      else if opts.workload = [] then some "jobs: empty workload"
      else if !opts.deadline.isZero ∧ !opts.deadline.after (now.add (-second)) then some "jobs: deadline has passed"
      else if opts.workload.length > maxSteps then some "jobs: too many workload steps"
      else if opts.impacted.length > maxSteps then some "jobs: too many impacted routes"
      else if opts.impacted.any fun r => byteLen r > 512 || containsAny r forbiddenControl then
        some "jobs: invalid impacted route"
      else if opts.workload.any fun s => s.body.length > maxBody then some "jobs: body too large"
      else none

/-- `validateCreate`: the text of the error, if there is one. -/
def validateCreate (lib : Lib) (now : Time) (opts : CreateOpts) : Option String :=
  (checkChanges "bound" opts.changes.bound).or
    ((checkChanges "unanalyzed" opts.changes.unanalyzed).or (checkOpts lib now opts))

def sourceDeclared : String := "declared"

def workloadOf (w : List Replay.Step) : List Step :=
  w.map fun s => { method := s.method, path := s.path, provenance := s.provenance, body := s.body }

/-- The task of the step at an index of the plan. -/
def buildTask (id : String) (s : Plan.Step) (i : Nat) : Task :=
  { id := taskID id i
    jobID := id
    planID := s.id
    kind := s.kind
    operator := s.operator
    required := s.required
    dependsOn := s.dependsOn
    n := s.n
    state := if s.operator then .skipped else .pending }

/-- `buildJob`, once the options are valid. -/
def buildJob (lib : Lib) (opts : CreateOpts) (id : String) (clock : Time) : Job :=
  let now := clock.truncate millisecond
  let baselineRev := { opts.baselineRev with source := sourceDeclared }
  let patchRev := { opts.patchRev with source := sourceDeclared }
  refreshJob lib
    { id
      created := now
      service := clipService opts.service
      baseline := opts.baseline
      patch := opts.patch
      baselineSHA := baselineRev.commit
      baselineRev
      patchRev
      impactSource := "client"
      dirty := patchRev.dirty
      deadline := if opts.deadline.isZero then now.add defaultDeadline else opts.deadline
      workload := workloadOf opts.workload
      plan := opts.plan
      impacted := opts.impacted
      changes := opts.changes
      tasks := settle (opts.plan.steps.zipIdx.map fun (s, i) => buildTask id s i) }

/-! ### Occupancy -/

/-- `occupancyKey`: the gateway that a target stands for. -/
def occupancyKey (lib : Lib) (raw : String) : String :=
  match lib.parseURL (trimSpace raw) with
  | .error _ => lib.toLower (trimSpace raw)
  | .ok u =>
    if u.host = "" then lib.toLower (trimSpace raw)
    else lib.toLower u.scheme ++ "://" ++ lib.toLower u.host

def occupancyKeys (lib : Lib) (j : Job) : List String :=
  let a := occupancyKey lib j.baseline
  let b := occupancyKey lib j.patch
  if a = b then [a] else [a, b]

/-- `occupies`: the job is pending or running. -/
def Job.occupies (j : Job) : Bool := j.status = .pending || j.status = .running

/-- `gatewayBusy`: another unfinished job has a gateway of the candidate. -/
def gatewayBusy (lib : Lib) (existing : List Job) (candidate : Job) : Bool :=
  let want := (occupancyKeys lib candidate).filter (· ≠ "")
  existing.any fun j => j.id ≠ candidate.id && j.occupies && (occupancyKeys lib j).any (· ∈ want)

/-! ### Quotas -/

structure Quota where
  activeJobs : Int := 0
  leasedTasks : Int := 0
deriving DecidableEq, Repr

def defaultActiveJobs : Int := 4
def defaultLeasedTasks : Int := 2

def Quota.normalized (q : Quota) : Quota :=
  { activeJobs := if q.activeJobs ≤ 0 then defaultActiveJobs else q.activeJobs
    leasedTasks := if q.leasedTasks ≤ 0 then defaultLeasedTasks else q.leasedTasks }

/-- `overActive`: the service of the candidate already has its share of unfinished jobs. -/
def overActive (existing : List Job) (candidate : Job) (q : Quota) : Bool :=
  let n := existing.countP fun j => j.id ≠ candidate.id && j.service = candidate.service && j.occupies
  q.normalized.activeJobs ≤ n

/-! ### Leasing -/

structure Worker where
  id : String
  slots : Int := 0
  jobID : String := ""
deriving DecidableEq, Repr

def defaultSlots : Int := 1
def maxSlots : Int := 8

def Worker.slotLimit (w : Worker) : Int :=
  if w.slots < 1 then defaultSlots else if w.slots > maxSlots then maxSlots else w.slots

def countTasks (p : Job → Task → Bool) (js : List Job) : Nat :=
  (js.map fun j => j.tasks.countP fun t => t.state = .leased && p j t).sum

def countLeased (js : List Job) (workerID : String) : Nat := countTasks (fun _ t => t.workerID = workerID) js

/-- The leased tasks of a service, as `pickReady` counts them. -/
def leasedOf (js : List Job) (service : List UInt8) : Nat := countTasks (fun j _ => j.service = service) js

/-- A choice of `pickReady`: a job, one of its tasks, and the leased tasks of the job's service. -/
structure Pick where
  job : Nat
  task : Nat
  leased : Nat
deriving DecidableEq, Repr

/-- One job of the loop of `pickReady`. -/
def pickJob (all : List Job) (wantJob : String) (q : Quota) (best : Option Pick) (j : Job) (ji : Nat) : Option Pick :=
  if wantJob ≠ "" ∧ j.id ≠ wantJob then best
  else if j.canceled ∨ j.status = .canceled then best
  else
    let n := leasedOf all j.service
    if q.leasedTasks ≤ n then best
    else if best.any fun b => b.leased ≤ n then best
    else match j.tasks.findIdx? fun t => t.state = .ready && !t.operator with
      | some ti => some { job := ji, task := ti, leased := n }
      | none => best

/-- `pickReady`: services with fewer leased tasks go first, ties in the order of the jobs; a service at its
    cap is passed over. -/
def pickReady (all : List Job) (wantJob : String) (q : Quota) : Option Pick :=
  all.zipIdx.foldl (fun best (j, ji) => pickJob all wantJob q.normalized best j ji) none

end Aquila.Jobs

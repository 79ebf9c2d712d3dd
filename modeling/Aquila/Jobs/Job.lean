import Aquila.Validate
import Aquila.Jobs.Task

/-! `internal/jobs`: jobs, whose status and validation follow from their tasks. -/

namespace Aquila.Jobs

inductive JobStatus where
  | pending
  | running
  | complete
  | failed
  | canceled
deriving DecidableEq, Repr

def JobStatus.text : JobStatus → String
  | .pending => "pending"
  | .running => "running"
  | .complete => "complete"
  | .failed => "failed"
  | .canceled => "canceled"

structure Step where
  method : String
  path : String
  provenance : String := ""
  body : List UInt8 := []
deriving DecidableEq, Repr

/-- An experiment DAG with its tasks. The service is kept as bytes, since it is cut at a byte. -/
structure Job where
  baselineRev : Revision := {}
  patchRev : Revision := {}
  impactSource : String := ""
  id : String := ""
  created : Time := 0
  status : JobStatus := .pending
  service : List UInt8 := []
  baseline : String := ""
  patch : String := ""
  baselineSHA : String := ""
  dirty : Bool := false
  deadline : Time := 0
  canceled : Bool := false
  impacted : List String := []
  changes : Impact.Changes := {}
  workload : List Step := []
  plan : Plan.DAG := {}
  tasks : List Task := []
  blockers : List Validate.Blocker := []
  validated : Bool := false
deriving DecidableEq, Repr, Inhabited

def jobStatus (tasks : List Task) : JobStatus :=
  if tasks.any (·.state = .failed) then .failed
  else if tasks.any fun t => t.state = .leased || t.state = .ready then .running
  else if tasks.any (·.state = .pending) then .pending
  else .complete

/-! ### Evidence -/

/-- The result of a task as `jobEvidence` reports it. -/
def taskEvidence (t : Task) : Plan.StepResult :=
  let sr := t.result
  let sr := if sr.id = "" then { sr with id := t.planID } else sr
  let sr := if sr.kind = "" then { sr with kind := t.kind } else sr
  match t.state with
  | .skipped => if sr.verdict = "" then { sr with verdict := Plan.verdictSkipped } else sr
  | .succeeded => sr
  | .failed => if sr.verdict = "" then { sr with verdict := Replay.verdictIncomplete } else sr
  | .pending | .ready | .leased => { sr with verdict := Replay.verdictIncomplete }

def jobEvidence (j : Job) : Plan.Evidence :=
  let steps := j.tasks.map taskEvidence
  { overall := Plan.overall steps, steps }

def replayWorkload (steps : List Step) : List Replay.Step :=
  steps.map fun s => { method := s.method, path := s.path, provenance := s.provenance, body := s.body }

/-- `jobDecision`: only a complete job is graded. -/
def jobDecision (lib : Lib) (j : Job) : Validate.Decision :=
  if j.canceled ∨ j.status ≠ .complete then
    { blockers := [{ code := Validate.codeStepFailed, subject := "job:" ++ j.status.text }] }
  else
    Validate.Input.decide lib
      { baselineRev := j.baselineRev
        patchRev := j.patchRev
        baseline := j.baseline
        patch := j.patch
        plan := j.plan
        result := jobEvidence j
        impacted := j.impacted
        changes := j.changes
        workload := replayWorkload j.workload }

def Job.graded (lib : Lib) (j : Job) : Job :=
  { j with validated := (jobDecision lib j).validated, blockers := (jobDecision lib j).blockers }

/-! ### Transitions -/

/-- `refreshJob`: settles the tasks, then recomputes status and validation. -/
def refreshJob (lib : Lib) (j : Job) : Job :=
  let tasks := settle j.tasks
  Job.graded lib { j with tasks, status := if j.canceled then .canceled else jobStatus tasks }

def Job.restated (j : Job) : Job := { j with status := jobStatus j.tasks }

/-- The job is over, for `applyCancel` and `failDeadline`. -/
def Job.ended (j : Job) : Bool :=
  j.canceled || j.status = .complete || j.status = .failed || j.status = .canceled

def cancelTask (t : Task) : Task :=
  if t.state = .pending ∨ t.state = .ready then { t with state := .skipped, err := "canceled" } else t

/-- `applyCancel`: what has not started is skipped; leased tasks stay leased. -/
def applyCancel (lib : Lib) (j : Job) : Job :=
  if j.ended then j
  else refreshJob lib { j with canceled := true, tasks := j.tasks.map cancelTask }

def defaultDeadline : Duration := 10 * minute

def deadlineTask (t : Task) : Task :=
  if t.state = .pending ∨ t.state = .ready ∨ t.state = .leased then
    { t with state := .failed, err := "deadline", workerID := "", leaseUntil := 0 }
  else t

/-- The deadline of a job, from its creation when it has none, `none` when it has neither. -/
def Job.due (j : Job) : Option Time :=
  if !j.deadline.isZero then some j.deadline
  else if j.created.isZero then none
  else some (j.created.add defaultDeadline)

/-- `failDeadline`: the job with every unfinished task failed, `none` when its deadline has not passed or it
    is over. -/
def failDeadline (lib : Lib) (now : Time) (j : Job) : Option Job :=
  if !j.due.any now.after ∨ j.ended then none
  else some (Job.graded lib { j with tasks := j.tasks.map deadlineTask, status := .failed })

/-- One job of the expiry pass: the job afterwards, and how many expiries it counts. -/
def expireJob (lib : Lib) (now : Time) (j : Job) : Job × Nat :=
  match failDeadline lib now j with
  | some j' => (j', 1)
  | none =>
    let n := j.tasks.countP fun t => (requeue t now j.canceled).isSome
    if n = 0 then (j, 0)
    else (refreshJob lib { j with tasks := j.tasks.map fun t => (requeue t now j.canceled).getD t }, n)

end Aquila.Jobs

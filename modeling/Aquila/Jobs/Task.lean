import Aquila.Plan

/-! `internal/jobs`: ids, and tasks, which wait for their dependencies, are leased to one attempt at a time and end
    with a result. -/

namespace Aquila.Jobs

/-! ### Errors -/

/-- The sentinel errors of the package, and the errors that are only a text. -/
inductive Err where
  | notFound
  | staleAttempt
  | notLeased
  | noReady
  | capacity
  | invalidID
  | busy
  | quota
  | other (text : String)
deriving DecidableEq, Repr

def Err.text : Err → String
  | .notFound => "jobs: not found"
  | .staleAttempt => "jobs: stale attempt"
  | .notLeased => "jobs: not leased"
  | .noReady => "jobs: no ready task"
  | .capacity => "jobs: worker at capacity"
  | .invalidID => "jobs: invalid job id"
  | .busy => "jobs: gateway occupied"
  | .quota => "jobs: service quota exceeded"
  | .other text => text

/-! ### Ids -/

def idLen : Nat := 16

def isHexDigit (c : Char) : Bool := ('0' ≤ c && c ≤ '9') || ('a' ≤ c && c ≤ 'f')

/-- What `newID` returns: eight bytes in lower-case hexadecimal. -/
structure ID where
  text : String
  len : text.toList.length = idLen
  hex : text.toList.all isHexDigit = true
deriving DecidableEq

/-- `normalizeID`: at most sixteen lower-case hexadecimal digits. No letter outside ASCII has a hexadecimal
    digit for its lower case, so ASCII case mapping decides. -/
def normalizeID (raw : String) : Option String :=
  let s := (trimSpace raw).toList.map asciiLower
  if s.length < 8 ∨ s.length > 64 then none
  else if !s.all isHexDigit then none
  else some (.ofList (s.take idLen))

/-- `taskID`: the first twelve digits of the job's id, then the index of the step. -/
def taskID (jobID : String) (i : Nat) : String :=
  let jobID := if byteLen jobID < 12 then jobID ++ "000000000000" else jobID
  .ofList (jobID.toList.take 12) ++ fmtHex 4 i

/-! ### Tasks -/

inductive TaskState where
  | pending
  | ready
  | leased
  | succeeded
  | failed
  | skipped
deriving DecidableEq, Repr

def TaskState.done (s : TaskState) : Bool := s = .succeeded || s = .skipped

/-- The states that no operation leaves. -/
def TaskState.terminal (s : TaskState) : Bool := s = .succeeded || s = .failed || s = .skipped

structure Task where
  id : String
  jobID : String
  planID : String
  kind : String
  operator : Bool := false
  required : Bool := false
  dependsOn : List String := []
  n : Int := 0
  state : TaskState := .pending
  attemptID : String := ""
  fence : Int := 0
  leaseUntil : Time := 0
  workerID : String := ""
  result : Plan.StepResult := {}
  err : String := ""
deriving DecidableEq, Repr

def leaseTTL : Duration := 15 * second

/-- `stateByPlan`: the state of the last task with a plan id. -/
def stateByPlan (tasks : List Task) (planID : String) : Option TaskState :=
  (tasks.reverse.find? (·.planID = planID)).map (·.state)

def depsOK (t : Task) (states : String → Option TaskState) : Bool :=
  t.dependsOn.all fun d => (states d).any TaskState.done

def settleTask (states : String → Option TaskState) (t : Task) : Task :=
  if t.operator ∧ t.state = .pending then { t with state := .skipped }
  else if t.state = .pending ∧ depsOK t states then { t with state := .ready }
  else t

/-- At most `rounds` rounds of `settle`, which ends when a round changes no state. -/
def settleRounds : (rounds : Nat) → List Task → List Task
  | 0, tasks => tasks
  | rounds + 1, tasks =>
    let next := tasks.map (settleTask (stateByPlan tasks))
    if next.map (·.state) = tasks.map (·.state) then next else settleRounds rounds next

/-- `settle`: pending tasks whose dependencies are done become ready, in as many rounds as there are
    tasks. -/
def settle (tasks : List Task) : List Task := settleRounds tasks.length tasks

def applyCommit (t : Task) (attempt : String) (result : Plan.StepResult) (fail : String) : Except Err Task :=
  if t.state ≠ .leased then .error .notLeased
  else if t.attemptID ≠ attempt then .error .staleAttempt
  else if fail ≠ "" then
    .ok { t with state := .failed, err := fail, result, workerID := "", leaseUntil := 0 }
  else if result.verdict = "pass" ∨ result.verdict = "validated" then .error (.other "jobs: result cannot be a pass")
  else .ok { t with state := .succeeded, result, err := "", workerID := "", leaseUntil := 0 }

def applyHeartbeat (t : Task) (attempt workerID : String) (now : Time) : Except Err Task :=
  if t.state ≠ .leased then .error .notLeased
  else if t.attemptID ≠ attempt ∨ t.workerID ≠ workerID then .error .staleAttempt
  else .ok { t with leaseUntil := now.add leaseTTL }

/-- `requeue`: the task after its lease expired, `none` when there is no expired lease. -/
def requeue (t : Task) (now : Time) (canceled : Bool) : Option Task :=
  if t.state ≠ .leased then none
  else if t.leaseUntil.isZero || !t.leaseUntil.before now then none
  else if canceled then
    some { t with state := .skipped, err := "canceled", attemptID := "", workerID := "", leaseUntil := 0 }
  else some { t with state := .ready, attemptID := "", workerID := "", leaseUntil := 0 }

def leaseTask (t : Task) (attempt workerID : String) (now : Time) : Task :=
  { t with
    state := .leased, attemptID := attempt, fence := int64 (t.fence + 1), workerID, leaseUntil := now.add leaseTTL }

end Aquila.Jobs

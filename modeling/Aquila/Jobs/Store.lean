import Aquila.Lib.Keyed
import Aquila.Lib.Machine
import Aquila.Jobs.Admission

/-! `internal/jobs`: the calls of the store interface and what they return, and what two stores share. -/

namespace Aquila.Jobs

structure Lease where
  job : Job
  task : Task
  n : Int
  fence : Int
  attempt : String
deriving DecidableEq, Repr

/-- The calls of `Store`. A call that makes an id carries the id that `newID` returns in it. -/
inductive Op where
  | create (opts : CreateOpts) (id : ID) (clock : CreateClock)
  | get (id : String)
  | list (limit : Int) (service : String)
  | lease (w : Worker) (now : Time) (attempt : ID)
  | heartbeat (taskID attemptID workerID : String) (now : Time)
  | commit (taskID attemptID : String) (result : Plan.StepResult) (fail : String)
  | requeueExpired (now : Time)
  | cancel (id : String)

inductive Resp where
  | err (e : Err)
  | job (j : Job)
  | jobs (js : List Job)
  | lease (l : Lease)
  | ok
  | task (t : Task)
  | count (n : Nat)
deriving DecidableEq

abbrev Trace := List (Op × Resp)

/-! ### Fresh ids -/

/-- The ids that a call has used: `Create` makes one as soon as its options are valid, `Lease` when it
    succeeds. -/
def drawn : Op × Resp → List String
  | (.create _ _ _, .err (.other _)) => []
  | (.create _ id _, _) => [id.text]
  | (.lease _ _ attempt, .lease _) => [attempt.text]
  | _ => []

def issued (tr : Trace) : List String := tr.flatMap drawn

/-- `newID` never returns an id again. -/
def FreshIDs (tr : Trace) (op : Op) (resp : Resp) : Prop := ∀ id ∈ drawn (op, resp), id ∉ issued tr

instance (tr : Trace) (op : Op) (resp : Resp) : Decidable (FreshIDs tr op resp) :=
  inferInstanceAs (Decidable (∀ id ∈ drawn (op, resp), id ∉ issued tr))

/-! ### Calls -/

def defaultList : Int := 20
def maxList : Int := 50

def clipLimit (n : Int) : Int := if n ≤ 0 then defaultList else if n > maxList then maxList else n

/-- The order of `List`: newest first, then by id downwards. -/
def newer (a b : Job) : Prop := b.created < a.created ∨ a.created = b.created ∧ b.id ≤ a.id

instance : DecidableRel newer := fun _ _ => inferInstanceAs (Decidable (_ ∨ _))

def listJobs (js : List Job) (limit : Int) (service : String) : List Job :=
  let want := clipService service
  ((js.filter fun j => want = [] || j.service = want).insertionSort newer).take (clipLimit limit).toNat

/-- `Worker.id` fails on a blank id. -/
def Worker.blank (w : Worker) : Bool := trimSpace w.id = ""

def errWorkerID : Err := .other "jobs: worker id required"
def errBadID : Err := .other "jobs: invalid id"
def errBadAttempt : Err := .other "jobs: invalid attempt"

def Worker.wantJob (w : Worker) : Except Err String :=
  if trimSpace w.jobID = "" then .ok ""
  else match normalizeID w.jobID with
    | some id => .ok id
    | none => .error .invalidID

/-- The normalized ids of a task and an attempt, for `Heartbeat` and `Commit`. -/
def normalizeIDs (taskID attemptID : String) : Except Err (String × String) :=
  match normalizeID taskID, normalizeID attemptID with
  | none, _ => .error errBadID
  | some _, none => .error errBadAttempt
  | some tid, some aid => .ok (tid, aid)

/-- The first task with an id in a walk over jobs, with its job and index. -/
def findTask (walk : List Job) (tid : String) : Option (Job × Nat × Task) :=
  walk.findSome? fun j => (j.tasks.findIdx? (·.id = tid)).bind fun i => (j.tasks[i]?).map fun t => (j, i, t)

def Job.setTask (j : Job) (i : Nat) (t : Task) : Job := { j with tasks := j.tasks.set i t }

/-- A lease of the task at an index of a job that holds it already. -/
def leaseOf (j : Job) (i : Nat) (t : Task) (attempt : String) : Lease :=
  { job := j, task := (j.tasks[i]?).getD t, n := t.n, fence := t.fence, attempt }

end Aquila.Jobs

import Aquila.Jobs.Store
import Aquila.Wire

/-! `internal/jobs/postgres.go`: the store in a table. Every call is one serializable transaction; `written` says
    what the JSON text of a payload keeps. -/

namespace Aquila.Jobs

/-- A row of `aquila.jobs`: the columns that a query reads. -/
structure Row where
  id : String
  created : Time
  status : JobStatus
  payload : Job

structure Postgres where
  rows : List Row := []

namespace Postgres
variable (lib : Lib) (q : Quota)

/-- `decodeJob`: validation is recomputed when a job is read. -/
def decodeJob (payload : Job) : Job := payload.graded lib

def Row.active (r : Row) : Bool := r.status = .pending || r.status = .running

/-- `ORDER BY created_at ASC, id ASC`. -/
def Row.older (a b : Row) : Prop := a.created < b.created ∨ a.created = b.created ∧ a.id ≤ b.id

instance : DecidableRel Row.older := fun _ _ => inferInstanceAs (Decidable (_ ∨ _))

/-- `lockJobs`: the jobs of the active rows, oldest first. -/
def lockJobs (p : Postgres) : List Job :=
  ((p.rows.filter Row.active).insertionSort Row.older).map fun r => decodeJob lib r.payload

def updateJob (p : Postgres) (j : Job) : Postgres :=
  { p with rows := p.rows.map fun r => if r.id = j.id then { r with status := j.status, payload := j } else r }

/-- `expireTx`: the jobs that changed are written back, one after the other. -/
def expireTx (now : Time) (p : Postgres) : Postgres × Nat :=
  let expired := (lockJobs lib p).map (expireJob lib now)
  (((expired.filter (·.2 ≠ 0)).map (·.1)).foldl updateJob p, (expired.map (·.2)).sum)

/-- `Create`. A refused transaction rolls the expiry back. A second row with an id violates the primary
    key. -/
def create (opts : CreateOpts) (id : ID) (clock : CreateClock) (p : Postgres) : Postgres × Resp :=
  match validateCreate lib clock.validate opts with
  | some e => (p, .err (.other e))
  | none =>
    let job := buildJob lib opts id.text clock.build
    let next := (expireTx lib clock.expire p).1
    let existing := lockJobs lib next
    if gatewayBusy lib existing job then (p, .err .busy)
    else if overActive existing job q then (p, .err .quota)
    else if job.id ∈ next.rows.map (·.id) then (p, .err (.other "insert job: duplicate key"))
    else
      ({ next with rows := next.rows ++ [{
        id := job.id, created := job.created, status := job.status, payload := job }] },
        .job job)

def find (p : Postgres) (id : String) : Option Job :=
  (Keyed.get Row.id p.rows id).map fun r => decodeJob lib r.payload

def get (id : String) (p : Postgres) : Resp :=
  match normalizeID id with
  | none => .err errBadID
  | some id =>
    match find lib p id with
    | none => .err .notFound
    | some j => .job j

/-- `ORDER BY created_at DESC, id DESC`. -/
def Row.newer (a b : Row) : Prop := b.created < a.created ∨ a.created = b.created ∧ b.id ≤ a.id

instance : DecidableRel Row.newer := fun _ _ => inferInstanceAs (Decidable (_ ∨ _))

def list (limit : Int) (service : String) (p : Postgres) : Resp :=
  let want := clipService service
  .jobs ((((p.rows.filter fun r => want = [] || r.payload.service = want).insertionSort Row.newer).take
    (clipLimit limit).toNat).map fun r => decodeJob lib r.payload)

/-- `Lease` checks the worker before the transaction, and refreshes the whole job. -/
def lease (w : Worker) (now : Time) (attempt : ID) (p : Postgres) : Postgres × Resp :=
  if w.blank then (p, .err errWorkerID)
  else match w.wantJob with
    | .error e => (p, .err e)
    | .ok want =>
      let p := (expireTx lib now p).1
      let all := lockJobs lib p
      if w.slotLimit ≤ countLeased all w.id then (p, .err .capacity)
      else match pickReady all want q with
        | none => (p, .err .noReady)
        | some pick =>
          match all[pick.job]? with
          | none => (p, .err .noReady)
          | some j =>
            match j.tasks[pick.task]? with
            | none => (p, .err .noReady)
            | some t =>
              let t := leaseTask t attempt.text w.id now
              let j := refreshJob lib (j.setTask pick.task t)
              (p.updateJob j, .lease (leaseOf j pick.task t attempt.text))

def heartbeat (taskID attemptID workerID : String) (now : Time) (p : Postgres) : Postgres × Resp :=
  match normalizeIDs taskID attemptID with
  | .error e => (p, .err e)
  | .ok (tid, aid) =>
    match findTask (lockJobs lib p) tid with
    | none => (p, .err .notFound)
    | some (j, i, t) =>
      match applyHeartbeat t aid workerID now with
      | .error e => (p, .err e)
      | .ok t => (p.updateJob (j.setTask i t), .ok)

def commit (taskID attemptID : String) (result : Plan.StepResult) (fail : String) (p : Postgres) : Postgres × Resp :=
  match normalizeIDs taskID attemptID with
  | .error e => (p, .err e)
  | .ok (tid, aid) =>
    match findTask (lockJobs lib p) tid with
    | none => (p, .err .notFound)
    | some (j, i, t) =>
      match applyCommit t aid result fail with
      | .error e => (p, .err e)
      | .ok t =>
        let j := refreshJob lib (j.setTask i t)
        (p.updateJob j, .task ((j.tasks[i]?).getD t))

def cancel (id : String) (p : Postgres) : Postgres × Resp :=
  match normalizeID id with
  | none => (p, .err errBadID)
  | some id =>
    match find lib p id with
    | none => (p, .err .notFound)
    | some j => (p.updateJob (applyCancel lib j), .job (applyCancel lib j))

def call (p : Postgres) : Op → Postgres × Resp
  | .create opts id clock => create lib q opts id clock p
  | .get id => (p, get lib id p)
  | .list limit service => (p, list lib limit service p)
  | .lease w now attempt => lease lib q w now attempt p
  | .heartbeat taskID attemptID workerID now => heartbeat lib taskID attemptID workerID now p
  | .commit taskID attemptID result fail => commit lib taskID attemptID result fail p
  | .requeueExpired now => ((expireTx lib now p).1, .count (expireTx lib now p).2)
  | .cancel id => cancel lib id p

def machine : Machine Op Resp where
  State := Postgres
  init := {}
  Step p op resp p' := call lib q p op = (p', resp)

def jobs (p : Postgres) : List Job := p.rows.map fun r => r.payload

/-- The job that is read of the text of a job. The service and the notes are the strings that may not be UTF-8. -/
def stored (j : Job) : Job :=
  decodeJob lib { j with
    service := Json.Codec.bytes.reread j.service
    tasks := j.tasks.map fun t => { t with result := Wire.stepResult.reread t.result } }

/-- The table as the next call reads it. -/
def written (p : Postgres) : Postgres :=
  { p with rows := p.rows.map fun r => { r with payload := stored lib r.payload } }

end Postgres
end Aquila.Jobs

import Aquila.Jobs.Store

/-! `internal/jobs/memory.go`: the store in process memory, a map from ids to jobs and the order in which
    they were created. -/

namespace Aquila.Jobs

/-- The map is a table keyed by the id of the job. -/
structure Memory where
  byID : List Job := []
  order : List String := []

namespace Memory
variable (lib : Lib) (q : Quota)

/-- `Memory.jobs`: the jobs in the order of their creation. -/
def jobs (m : Memory) : List Job := m.order.map fun id => (Keyed.get Job.id m.byID id).getD default

def put (m : Memory) (j : Job) : Memory := { m with byID := Keyed.put Job.id m.byID j }

/-- `requeueExpiredLocked`: every job is expired on its own, so the order of the walk does not matter. -/
def requeueExpired (now : Time) (m : Memory) : Memory × Nat :=
  ({ m with byID := m.byID.map fun j => (expireJob lib now j).1 }, (m.byID.map fun j => (expireJob lib now j).2).sum)

def create (opts : CreateOpts) (id : ID) (clock : CreateClock) (m : Memory) : Memory × Resp :=
  match validateCreate lib clock.validate opts with
  | some e => (m, .err (.other e))
  | none =>
    let job := buildJob lib opts id.text clock.build
    let m := (requeueExpired lib clock.expire m).1
    if gatewayBusy lib m.jobs job then (m, .err .busy)
    else if overActive m.jobs job q then (m, .err .quota)
    else ({ m.put job with order := m.order ++ [job.id] }, .job job)

def get (id : String) (m : Memory) : Resp :=
  match normalizeID id with
  | none => .err errBadID
  | some id =>
    match Keyed.get Job.id m.byID id with
    | none => .err .notFound
    | some j => .job j

/-- `Memory.Lease` recomputes only the status of the job. -/
def lease (w : Worker) (now : Time) (attempt : ID) (m : Memory) : Memory × Resp :=
  if w.blank then (m, .err errWorkerID)
  else
    let m := (requeueExpired lib now m).1
    if w.slotLimit ≤ countLeased m.jobs w.id then (m, .err .capacity)
    else match w.wantJob with
      | .error e => (m, .err e)
      | .ok want =>
        match pickReady m.jobs want q with
        | none => (m, .err .noReady)
        | some pick =>
          match m.jobs[pick.job]? with
          | none => (m, .err .noReady)
          | some j =>
            match j.tasks[pick.task]? with
            | none => (m, .err .noReady)
            | some t =>
              let t := leaseTask t attempt.text w.id now
              let j := (j.setTask pick.task t).restated
              (m.put j, .lease (leaseOf j pick.task t attempt.text))

/-- `walk` is the order in which the loop visits the map. -/
def heartbeat (walk : List Job) (taskID attemptID workerID : String) (now : Time) (m : Memory) : Memory × Resp :=
  match normalizeIDs taskID attemptID with
  | .error e => (m, .err e)
  | .ok (tid, aid) =>
    match findTask walk tid with
    | none => (m, .err .notFound)
    | some (j, i, t) =>
      match applyHeartbeat t aid workerID now with
      | .error e => (m, .err e)
      | .ok t => (m.put (j.setTask i t), .ok)

def commit (walk : List Job) (taskID attemptID : String) (result : Plan.StepResult) (fail : String) (m : Memory) :
    Memory × Resp :=
  match normalizeIDs taskID attemptID with
  | .error e => (m, .err e)
  | .ok (tid, aid) =>
    match findTask walk tid with
    | none => (m, .err .notFound)
    | some (j, i, t) =>
      match applyCommit t aid result fail with
      | .error e => (m, .err e)
      | .ok t =>
        let j := refreshJob lib (j.setTask i t)
        (m.put j, .task ((j.tasks[i]?).getD t))

def cancel (id : String) (m : Memory) : Memory × Resp :=
  match normalizeID id with
  | none => (m, .err errBadID)
  | some id =>
    match Keyed.get Job.id m.byID id with
    | none => (m, .err .notFound)
    | some j => (m.put (applyCancel lib j), .job (applyCancel lib j))

/-- One call, given the order in which a loop over the map visits it. -/
def call (walk : List Job) (m : Memory) : Op → Memory × Resp
  | .create opts id clock => create lib q opts id clock m
  | .get id => (m, get id m)
  | .list limit service => (m, .jobs (listJobs m.jobs limit service))
  | .lease w now attempt => lease lib q w now attempt m
  | .heartbeat taskID attemptID workerID now => heartbeat walk taskID attemptID workerID now m
  | .commit taskID attemptID result fail => commit lib walk taskID attemptID result fail m
  | .requeueExpired now => ((requeueExpired lib now m).1, .count (requeueExpired lib now m).2)
  | .cancel id => cancel lib id m

def machine : Machine Op Resp where
  State := Memory
  init := {}
  Step m op resp m' := ∃ walk, walk.Perm m.byID ∧ call lib q walk m op = (m', resp)

end Memory
end Aquila.Jobs

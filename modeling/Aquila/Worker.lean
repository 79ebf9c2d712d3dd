import Aquila.Action
import Aquila.Jobs.Store

/-! `internal/worker/execute.go`: a worker executes the plan of one step that it makes from its lease, or finds its
    result in a cache. -/

namespace Aquila.Worker
open Jobs (Lease)

/-- The plan that `ExecuteWith` makes from a lease. -/
def leaseDAG (l : Lease) : Plan.DAG :=
  let n := if l.n < 1 then 1 else l.n
  { healthPath := l.job.plan.healthPath
    steps := [{ id := l.task.planID, kind := l.task.kind, required := true, n }] }

/-- `ExecuteWith` without a cache. `ctx` is what the context says at first; the deadline of the job is in the
    contexts of the world. -/
def executeWith (lib : Lib) (world : Plan.World) (ctx : Option String) (l : Lease) : Except String Plan.StepResult :=
  match ctx with
  | some e => .error e
  | none =>
    if l.task.operator then .error "worker: operator task"
    else do
      let ev ← Plan.execute lib world (leaseDAG l) l.job.baseline l.job.patch (Jobs.replayWorkload l.job.workload)
      match ev.steps with
      | [] => .error "worker: empty result"
      | out :: _ =>
        if out.verdict = "pass" ∨ out.verdict = "validated" then .error "worker: result cannot be a pass" else .ok out

inductive Err where
  | worker (e : String)
  | cache (e : Action.Err)
deriving DecidableEq, Repr

/-- `ExecuteWith` with a cache. -/
def executeWithCache (lib : Lib) (t : Jobs.Texts) (sha : Cas.Sha256) (world : Plan.World) (l : Lease) :
    Disk.Prog (Except Err Plan.StepResult) :=
  .ask fun
  | some e => .ret (.error (.worker e))
  | none =>
    if l.task.operator then .ret (.error (.worker "worker: operator task"))
    else
      let key := Action.fromLease t l
      let cached := Action.cacheable (bytes l.task.kind)
      let run : Disk.Prog (Except Err Plan.StepResult) :=
        match executeWith lib world none l with
        | .error e => .ret (.error (.worker e))
        | .ok out =>
          if cached then
            (Action.put sha key out).bind fun
            | some e => .ret (.error (.cache e))
            | none => .ret (.ok out)
          else .ret (.ok out)
      if cached then
        (Action.get sha key).bind fun
        | .error e => .ret (.error (.cache e))
        | .ok (some hit) => .ret (.ok hit)
        | .ok none => run
      else run

end Aquila.Worker

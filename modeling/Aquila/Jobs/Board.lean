import Aquila.Jobs.Memory
import Aquila.Jobs.Postgres

/-! What both stores are for: a board of jobs on which workers lease, renew and commit tasks. It leaves open which
    ready task a lease takes, and a store may see only some of its jobs. -/

namespace Aquila.Jobs

namespace Board
variable (lib : Lib) (q : Quota) (sees : Job → Bool)

def expire (now : Time) (js : List Job) : List Job := js.map fun j => if sees j then (expireJob lib now j).1 else j

def expiryOf : Op → Option Time
  | .create _ _ clock => some clock.expire
  | .lease _ now _ => some now
  | .requeueExpired now => some now
  | _ => none

/-- A task that a lease may take: ready, in a job that is seen and not canceled, for a worker with a free slot
    and a service below its cap. -/
structure Leasable (js : List Job) (w : Worker) (j : Job) (i : Nat) (t : Task) : Prop where
  worker : w.blank = false
  mem : j ∈ js
  seen : sees j = true
  task : j.tasks[i]? = some t
  ready : t.state = .ready
  operator : t.operator = false
  canceled : j.canceled = false
  slot : (countLeased (js.filter sees) w.id : Int) < w.slotLimit
  share : (leasedOf (js.filter sees) j.service : Int) < q.normalized.leasedTasks

/-- A task that a heartbeat or commit may find under an id. -/
structure Found (js : List Job) (tid : String) (j : Job) (i : Nat) (t : Task) : Prop where
  mem : j ∈ js
  seen : sees j = true
  task : j.tasks[i]? = some t
  id : t.id = tid

def leaseJob (j : Job) (i : Nat) (t : Task) (w : Worker) (now : Time) (attempt : ID) : Job :=
  refreshJob lib (j.setTask i (leaseTask t attempt.text w.id now))

inductive Step : List Job → Op → Resp → List Job → Prop
  | refused (js op e) : Step js op (.err e) js
  | expiredOnly (js op e now) : expiryOf op = some now → Step js op (.err e) (expire lib sees now js)
  | got (js raw j) : j ∈ js → Step js (.get raw) (.job j) js
  | listed (js limit service l) : l ⊆ js → Step js (.list limit service) (.jobs l) js
  | requeued (js now n) : Step js (.requeueExpired now) (.count n) (expire lib sees now js)
  | created (js opts id clock) :
      validateCreate lib clock.validate opts = none →
      gatewayBusy lib (expire lib sees clock.expire js) (buildJob lib opts id.text clock.build) = false →
      overActive (expire lib sees clock.expire js) (buildJob lib opts id.text clock.build) q = false →
      Step js (.create opts id clock) (.job (buildJob lib opts id.text clock.build))
        (expire lib sees clock.expire js ++ [buildJob lib opts id.text clock.build])
  | leased (js w now attempt j i t) :
      Leasable q sees (expire lib sees now js) w j i t →
      Step js (.lease w now attempt)
        (.lease (leaseOf (leaseJob lib j i t w now attempt) i (leaseTask t attempt.text w.id now) attempt.text))
        (Keyed.update Job.id (expire lib sees now js) (leaseJob lib j i t w now attempt))
  | renewed (js taskID attemptID workerID now tid aid j i t t') :
      normalizeIDs taskID attemptID = .ok (tid, aid) → Found sees js tid j i t →
      applyHeartbeat t aid workerID now = .ok t' →
      Step js (.heartbeat taskID attemptID workerID now) .ok (Keyed.update Job.id js (j.setTask i t'))
  | committed (js taskID attemptID result fail tid aid j i t t') :
      normalizeIDs taskID attemptID = .ok (tid, aid) → Found sees js tid j i t →
      applyCommit t aid result fail = .ok t' →
      Step js (.commit taskID attemptID result fail)
        (.task (((refreshJob lib (j.setTask i t')).tasks[i]?).getD t'))
        (Keyed.update Job.id js (refreshJob lib (j.setTask i t')))
  | canceled (js raw id j) :
      normalizeID raw = some id → j ∈ js → j.id = id →
      Step js (.cancel raw) (.job (applyCancel lib j)) (Keyed.update Job.id js (applyCancel lib j))

def machine : Machine Op Resp where
  State := List Job
  init := []
  Step := Step lib q sees

end Board

/-! ### The two stores -/

inductive StoreKind where
  | memory
  | postgres
deriving DecidableEq, Repr

namespace StoreKind
variable (lib : Lib) (q : Quota)

def machine : StoreKind → Machine Op Resp
  | memory => Memory.machine lib q
  | postgres => Postgres.machine lib q

def jobs : (k : StoreKind) → (k.machine lib q).State → List Job
  | memory => Memory.jobs
  | postgres => Postgres.jobs

/-- What a call leaves for the next one: the table keeps a JSON text of each job. -/
def written : (k : StoreKind) → (k.machine lib q).State → (k.machine lib q).State
  | memory => id
  | postgres => Postgres.written lib

/-- The store with the texts of its jobs. -/
def encoded (k : StoreKind) : Machine Op Resp where
  State := (k.machine lib q).State
  init := (k.machine lib q).init
  Step s op resp s' := ∃ t, (k.machine lib q).Step s op resp t ∧ s' = k.written lib q t

/-- The store, called only when its jobs meet a condition. -/
def within (C : List Job → Op → Prop) (k : StoreKind) : Machine Op Resp :=
  (k.machine lib q).restrict fun s op => C (k.jobs lib q s) op

/-- One call, the loops of `Memory` visiting the map in the order of creation. -/
def call : (k : StoreKind) → (k.machine lib q).State → Op → (k.machine lib q).State × Resp
  | memory => fun m => Memory.call lib q m.byID m
  | postgres => Postgres.call lib q

def encodedCall (k : StoreKind) (s : (k.machine lib q).State) (op : Op) : (k.machine lib q).State × Resp :=
  (k.written lib q (k.call lib q s op).1, (k.call lib q s op).2)

/-- The jobs that the store visits when it expires, leases, renews and commits. -/
def sees : StoreKind → Job → Bool
  | memory => fun _ => true
  | postgres => Job.occupies

end StoreKind

end Aquila.Jobs

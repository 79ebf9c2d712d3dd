import Aquila.Cas
import Aquila.Jobs.Submission

/-! `internal/action`: results of steps under the keys of their actions, as objects of a store and an index of
    files. -/

namespace Aquila.Action
open Disk (Path Prog)
open Json (Codec write compact parse scrubText)

def keyVersion : Int := 3

structure Key where
  v : Int := 0
  kind : List UInt8 := []
  baselineTree : List UInt8 := []
  patchTree : List UInt8 := []
  scope : List UInt8 := []
  n : Int := 0
  workload : List UInt8 := []
  healthPath : List UInt8 := []
deriving DecidableEq, Repr

def keyCodec : Codec Key := .struct
  (.always "v" .int <| .always "kind" .bytes <| .always "baseline_tree" .bytes <| .always "patch_tree" .bytes <| .always
    "scope" .bytes <|
    .always "n" .int <| .always "workload" .bytes <| .nonzero "health_path" .bytes .nil List.not_mem_nil)
  ⟨fun k => (k.v, k.kind, k.baselineTree, k.patchTree, k.scope, k.n, k.workload, k.healthPath, ()),
    fun (v, kind, baselineTree, patchTree, scope, n, workload, healthPath, ()) =>
      { v, kind, baselineTree, patchTree, scope, n, workload, healthPath },
    fun _ => rfl, fun _ => rfl⟩

/-- `json.Marshal`. -/
def marshal {α : Type} (c : Codec α) (a : α) : Option (List UInt8) :=
  (c.toDoc a).map fun d => bytes (.ofList (write compact 0 d))

/-- `json.Unmarshal`. -/
def unmarshal {α : Type} (c : Codec α) (raw : List UInt8) : Option α :=
  (parse (scrubText (Utf8.runes raw))).bind c.ofDoc

section
variable (sha : Cas.Sha256)

/-- `Digest`. -/
def Key.digest (k : Key) : List UInt8 := sha.sum ((marshal keyCodec k).getD [])

/-- `FromLease`. -/
def fromLease (t : Jobs.Texts) (lease : Jobs.Lease) : Key :=
  let job := lease.job
  let key : Key :=
    { v := keyVersion
      scope := bytes ("job:" ++ job.id)
      kind := bytes lease.task.kind
      n := if lease.n < 1 then 1 else lease.n
      workload := (marshal (.list false (Jobs.stepCodec t)) job.workload).getD []
      healthPath := bytes job.plan.healthPath }
  if job.baselineRev.source = sourceBuilt ∧ job.patchRev.source = sourceBuilt ∧ job.baselineRev.tree ≠ "" ∧
    job.patchRev.tree ≠ "" then
    { key with scope := bytes "trees", baselineTree := bytes job.baselineRev.tree,
               patchTree := bytes job.patchRev.tree }
  else key

/-- `Cacheable`. -/
def cacheable (kind : List UInt8) : Bool := kind = bytes Plan.kindBehavior || kind = bytes Plan.kindTests

inductive Err where
  | cas (e : Cas.Err)
  -- An error of a system call.
  | system (e : String)
  -- The error of the last renaming, which is returned as it is.
  | rename (e : String)
  -- The result cannot be written or read as JSON.
  | json
  | cachedPass
deriving DecidableEq, Repr

def file (key : Key) : Path := ["cache", Cas.text (key.digest sha)]

/-- `Cache.Get`. -/
def get (key : Key) : Prog (Except Err (Option Plan.StepResult)) :=
  if !cacheable key.kind then .ret (.ok none)
  else
    (Prog.readFile (file sha key)).bind fun
    | .error none => .ret (.ok none)
    | .error (some e) => .ret (.error (.system e))
    | .ok raw =>
      (Cas.get sha (trimSpaceBytes raw)).bind fun
      | .error e => .ret (.error (.cas e))
      | .ok body =>
        match unmarshal Wire.stepResult body with
        | none => .ret (.error .json)
        | some res => if res.verdict = "pass" ∨ res.verdict = "validated" then .ret (.error .cachedPass)
            else .ret (.ok (some res))

/-- `Cache.Put`. -/
def put (key : Key) (res : Plan.StepResult) : Prog (Option Err) :=
  if !cacheable key.kind then .ret none
  else if res.verdict = "" ∨ res.verdict = "incomplete" ∨ res.verdict = "pass" ∨
    res.verdict = "validated" then .ret none
  else
    match marshal Wire.stepResult res with
    | none => .ret (some .json)
    | some body =>
      (Cas.put sha body).bind fun
      | .error e => .ret (some (.cas e))
      | .ok id =>
        .createTemp ["cache"] ".idx-" fun
        | .error e => .ret (some (.system e))
        | .ok (name, tmp) =>
          .write tmp id fun
          | some e => .close tmp fun _ => .remove name fun _ => .ret (some (.system e))
          | none =>
            .close tmp fun
            | some e => .remove name fun _ => .ret (some (.system e))
            | none => .rename name (file sha key) fun e => .ret (e.map .rename)

end

end Aquila.Action

import Aquila.Impact
import Aquila.Plan

/-! `internal/plan`: the DAG that a change calls for, before it is executed or queued. -/

namespace Aquila.Plan

def defaultLatencyN : Int := 20

/-- `FromImpact`: env, behavior and latency always; concurrency and a fault probe when the change has a runtime
    path. -/
def fromImpact (rep : Impact.Report) : Except String DAG :=
  if rep.files = [] ∧ rep.direct = [] ∧ rep.likely = [] ∧ rep.runtime = [] ∧ rep.unobserved = [] then
    .error "plan: empty impact"
  else
    let core : List Step :=
      [{ id := "env", kind := kindEnv, required := true
         reason := "GET /healthz on baseline and patch; compose is a local shop path" },
       { id := "behavior", kind := kindBehavior, required := true, dependsOn := ["env"]
         reason := "first-run status and json compare" },
       { id := "latency", kind := kindLatency, required := true, n := defaultLatencyN, dependsOn := ["env"]
         reason := "successful-sample median; p95 withheld below 20; no regression threshold" }]
    let runtime : List Step :=
      [{ id := "concurrency", kind := kindConcurrency, required := true, n := defaultConcurrencyN, dependsOn := ["env"]
         reason := "parallel replay error-rate compare; not a latency threshold" },
       { id := "fault_status", kind := kindFaultStatus, status := 502, dependsOn := ["env"]
         reason := "one-sided 502 inject on patch via loopback proxy; probe, not a patch verdict" }]
    let note :=
      "not validated until required executable steps succeed on a clean recorded revision. match is not a pass."
    if rep.runtime ≠ [] then
      .ok { steps := core ++ runtime, notes := [note, "fault is a one-sided inject probe and does not vote overall"] }
    else .ok { steps := core, notes := [note, "concurrency and fault omitted: no observed runtime path"] }

/-! ### Tests -/

/-- The file system of the operator, as `WithTests` reads it. -/
structure Checkout where
  -- `filepath.Abs`.
  abs : String → Option String
  -- Whether the directory holds a `go.mod`.
  goMod : String → Bool
  -- `hasGoFiles` of a directory, given by a root and a path below it.
  goFiles : (root dir : String) → Bool

def pathDir (p : String) : String :=
  match p.toList.reverse.dropWhile (· ≠ '/') with
  | [] | [_] => "."
  | _ :: dir => .ofList dir.reverse

def safeRel (dir : String) : Bool :=
  dir = "." || dir = "" || !(hasPrefix dir "/" || contains dir ".." || contains dir "\\")

/-- The package of a changed file, if it has Go files in this checkout. -/
def testPackage (co : Checkout) (root p : String) : Option String :=
  if !hasSuffix p ".go" || contains p "/testdata/" then none
  else
    let dir := pathDir p
    if !safeRel dir then none
    else if !co.goFiles root dir then none
    else some (if dir ≠ "." ∧ dir ≠ "" then "./" ++ dir else ".")

def testPackages (co : Checkout) (root : String) (files : List String) : List String :=
  (files.filterMap (testPackage co root)).reverse.dedup.reverse

/-- `WithTests`: a required tests step, when the directory is a module with packages of the change. -/
def withTests (co : Checkout) (dag : DAG) (dir : String) (files : List String) : DAG :=
  match co.abs dir with
  | none => dag
  | some root =>
    if !co.goMod root then { dag with notes := dag.notes ++ ["tests omitted: no go.mod"] }
    else
      let pkgs := testPackages co root files
      if pkgs = [] then { dag with notes := dag.notes ++ ["tests omitted: no go packages in impact"] }
      else if hasKind dag kindTests then { dag with module := root, testPackages := pkgs }
      else
        { dag with
          steps := dag.steps ++
            [{ id := "tests", kind := kindTests, required := true
               reason := "go test of impact packages in the current module; not a two-revision compare" }]
          notes := dag.notes ++ ["impacted tests are of the current module, not baseline vs patch"]
          module := root
          testPackages := pkgs }

end Aquila.Plan

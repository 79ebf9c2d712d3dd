import Aquila.Diff
import Aquila.Graph
import Aquila.Impact
import Aquila.Locate

/-! `internal/impact/analyze.go`: a diff mapped onto the source graph, then onto what was observed at runtime. -/

namespace Aquila.Impact
open Source (Node)

def maxFindings : Nat := 500
def maxInt : Int := 2 ^ 63 - 1

def appendFinding (dst : List Finding) (f : Finding) : List Finding :=
  if dst.length ≥ maxFindings then dst else dst ++ [f]

def addNew {α : Type} [DecidableEq α] (l : List α) (a : α) : List α := if a ∈ l then l else l ++ [a]

/-! ### The changed functions -/

/-- `index`: the file node of a path, the last one of the graph. -/
def fileNode (g : Source.Snapshot) (path : String) : Option Node :=
  g.nodes.reverse.find? fun n => n.kind = .file && n.file ≠ "" && n.file = path

/-- `index`: the functions of a path by their lines. -/
def funcs (g : Source.Snapshot) (path : String) : List Node :=
  (Locate.funcs g path).insertionSort fun a b => a.line < b.line ∨ a.line = b.line ∧ a.id ≤ b.id

/-- Whether the end line of a function is known. -/
def closed (fn : Node) : Bool := fn.endLine ≥ fn.line && fn.endLine > 0

/-- The line after a function, which is the line of the next one if its end line is not known. -/
def spanEnd (fn : Node) (rest : List Node) : Int :=
  if closed fn then int64 (fn.endLine + 1)
  else match rest with
    | next :: _ => next.line
    | [] => maxInt

def funcSpans : List Node → List (Node × Int)
  | [] => []
  | fn :: rest => (fn, spanEnd fn rest) :: funcSpans rest

/-- The function that a line is given to, the first one that it is in. -/
def hitOf (spans : List (Node × Int)) (ln : Int) : Option Node :=
  (spans.find? fun s => s.1.line ≤ ln && ln < s.2).map (·.1)

/-- The functions that lines are in, each with its first line, and whether some line is in none. -/
def overlappingFuncs (funcs : List Node) (lines : List Int) : List (Node × Int) × Bool :=
  lines.foldl (fun (out, outside) ln =>
    match hitOf (funcSpans funcs) ln with
    | none => (out, true)
    | some fn => (if fn.id ∈ out.map (·.1.id) then out else out ++ [(fn, ln)], outside)) ([], false)

structure Changed where
  files : List String := []
  direct : List Finding := []
  unobserved : List Finding := []
  directID : List String := []
deriving DecidableEq, Repr

def fileFinding (node : Node) (path reason : String) : Finding :=
  { name := node.name, file := path, sourceID := node.id, reason, provenance := "diff" }

def hitFinding (h : Node × Int) : Finding :=
  { name := h.1.name, file := h.1.file, sourceID := h.1.id, line := h.2, reason := "changed_lines",
    provenance := "diff" }

def changedFile (g : Source.Snapshot) (out : Changed) (f : Diff.File) : Changed :=
  let out := { out with files := addNew out.files f.path }
  match fileNode g f.path with
  | none =>
    { out with
      unobserved := appendFinding out.unobserved
        { name := f.path, file := f.path, reason := "unknown_file", provenance := "diff" } }
  | some node =>
    if f.binary then { out with direct := appendFinding out.direct (fileFinding node f.path "binary") }
    else
      let (hits, outside) := overlappingFuncs (funcs g f.path) f.lines
      let out := if outside then { out with
        direct := appendFinding out.direct (fileFinding node f.path "changed_outside_func") } else out
      if hits = [] then { out with direct := appendFinding out.direct (fileFinding node f.path "changed_file") }
      else hits.foldl (fun out h =>
        { out with directID := addNew out.directID h.1.id, direct := appendFinding out.direct (hitFinding h) }) out

def changedFiles (g : Source.Snapshot) (d : Diff) : Changed := d.files.foldl (changedFile g) {}

/-! ### Their callers -/

/-- The nodes with a call of `id`. -/
def callers (g : Source.Snapshot) (id : String) : List Node :=
  (((g.neighbors id).getD []).filter fun n => n.direction = .incoming && n.kind = .calls).map (·.node)

/-- `callerTargets`: the changed functions that a caller calls. -/
def callerTargets (g : Source.Snapshot) (directID : List String) (caller : String) : List String :=
  directID.filter fun id => (g.node id).isSome && caller ∈ (callers g id).map (·.id)

/-- The callers that are not changed themselves, each once. -/
def likely (g : Source.Snapshot) (directID : List String) : List Node :=
  (directID.flatMap (callers g)).foldl (fun out n => if n.id ∈ directID ∨
    n.id ∈ out.map (·.id) then out else out ++ [n]) []

def callerFinding (n : Node) : Finding :=
  { name := n.name, file := n.file, sourceID := n.id, line := n.line, reason := "caller", provenance := "types" }

/-! ### Runtime -/

def routeLabel (lib : Lib) (method path : String) : String :=
  let method := lib.toUpper (trimSpace method)
  let path := cutBefore (trimSpace path) '?'
  if method = "" ∨ path = "" then ""
  else method ++ " " ++ (if hasPrefix path "/" then path else "/" ++ path)

/-- The finding of a bound span under its entry route, without a provenance of its own. -/
def boundFinding (lib : Lib) (b : Locate.Binding) (entry : Graph.EntryRoute) : Finding :=
  { traceID := b.traceID, spanID := b.spanID, entrySpanID := entry.spanID, name := b.sourceName, file := b.file
    sourceID := b.sourceID, service := b.serviceName, line := b.line, route := routeLabel lib entry.method entry.route
    reason := "bound_span", provenance := Locate.provenanceCodeAttrs }

def boundFindings (lib : Lib) (b : Locate.Binding) (entry : Graph.EntryRoute) (direct : Bool) (targets : List String) :
    List Finding :=
  let f := boundFinding lib b entry
  if f.route = "" then [f]
  else
    (if direct then [{ f with provenance := provenanceTraceEntry }] else []) ++
    (if targets = [] then []
     else
       let links := (targets.map fun target => b.sourceID ++ " -> " ++ target).insertionSort (· ≤ ·)
       [{ f with provenance := provenanceTraceEntryCaller, reason := "bound_span_caller", via := join "; " links }])

/-- What the pass over the bindings has found: `seenBind` holds the keys of the findings, and `routeTraces` each route
    with each trace that reached it. -/
structure Joined where
  services : List String := []
  seenBind : List String := []
  routeTraces : List (String × String) := []
  runtime : List Finding := []
deriving DecidableEq, Repr

def Finding.key (f : Finding) : String := f.sourceID ++ "\x00" ++ f.route ++ "\x00" ++ f.provenance

def joinFinding (traceID : String) (out : Joined) (f : Finding) : Joined :=
  if f.service = "" ∧ f.route = "" then out
  else
    let out := if f.route ≠ "" ∧ traceID ≠ "" then { out with routeTraces := addNew out.routeTraces (f.route, traceID) }
      else out
    if f.key ∈ out.seenBind then out
    else { out with seenBind := out.seenBind ++ [f.key], runtime := appendFinding out.runtime f }

def findingsOf (lib : Lib) (g : Source.Snapshot) (directID : List String) (rt : Graph.Snapshot) (b : Locate.Binding) :
    List Finding :=
  boundFindings lib b ((rt.entryForSpan b.traceID b.spanID).getD {}) (b.sourceID ∈ directID)
    (callerTargets g directID b.sourceID)

def joinBinding (lib : Lib) (g : Source.Snapshot) (directID likelyID : List String) (rt : Graph.Snapshot) (out : Joined)
    (b : Locate.Binding) : Joined :=
  if b.sourceID ∉ directID ∧ b.sourceID ∉ likelyID then out
  else
    let out := if b.serviceName ≠ "" then { out with services := addNew out.services b.serviceName } else out
    (findingsOf lib g directID rt b).foldl (joinFinding b.traceID) out

def pathTouches (path services : List String) : Bool := path.any (· ∈ services)

def pathFinding (p : Graph.Path) : Finding :=
  { path := join " -> " p.services, reason := "observed_path", provenance := Graph.provenanceObservedParent }

def locateHit (loc : Locate.Snapshot) (id : String) : Bool := loc.bindings.any (·.sourceID = id)

def unboundFinding (f : Finding) : Finding :=
  { name := f.name, file := f.file, sourceID := f.sourceID, reason := "no_runtime_bind", provenance := "locate" }

/-! ### The report -/

def sortFindings (fs : List Finding) : List Finding :=
  fs.insertionSort fun a b =>
    a.file < b.file ∨ a.file = b.file ∧ (a.name < b.name ∨ a.name = b.name ∧ (a.path < b.path ∨ a.path = b.path ∧
      (a.route < b.route ∨ a.route = b.route ∧ (a.traceID < b.traceID ∨ a.traceID = b.traceID ∧ a.spanID ≤ b.spanID))))

/-- `Analyze`. -/
def analyze (lib : Lib) (g : Option Source.Snapshot) (d : Diff) (loc : Locate.Snapshot)
    (rt : Graph.Snapshot) : Report :=
  match g with
  | none => {}
  | some g =>
    let changed := changedFiles g d
    let calling := likely g changed.directID
    let joined := loc.bindings.foldl (joinBinding lib g changed.directID (calling.map (·.id)) rt) {}
    let paths := rt.paths.filter fun p => pathTouches p.services joined.services
    let runtime := (paths.map pathFinding).foldl appendFinding joined.runtime
    let unbound := changed.direct.filter fun f => f.sourceID ≠ "" && !locateHit loc f.sourceID
    let out : Report :=
      { files := changed.files
        direct := changed.direct
        likely := (calling.map callerFinding).foldl appendFinding []
        runtime
        unobserved := (unbound.map unboundFinding).foldl appendFinding changed.unobserved }
    let counts := (runtimeRoutes lib out).map fun route =>
      { route, traces := ((joined.routeTraces.filter (·.1 = route)).length : Int) }
    { routeTraceCounts := counts.filter (·.traces > 0)
      files := out.files.insertionSort (· ≤ ·)
      direct := sortFindings out.direct
      likely := sortFindings out.likely
      runtime := sortFindings out.runtime
      unobserved := sortFindings out.unobserved }

end Aquila.Impact

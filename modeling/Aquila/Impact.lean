import Aquila.Go

/-! `internal/impact`: the blast radius of a change, its routes, and the files it leaves unanalyzed. -/

namespace Aquila.Impact

structure Finding where
  via : String := ""
  traceID : String := ""
  spanID : String := ""
  entrySpanID : String := ""
  name : String := ""
  file : String := ""
  sourceID : String := ""
  service : String := ""
  path : String := ""
  route : String := ""
  line : Int := 0
  reason : String := ""
  provenance : String := ""
deriving DecidableEq, Repr

structure RouteTraceCount where
  route : String
  traces : Int
deriving DecidableEq, Repr

structure RouteAttribution where
  route : String
  provenance : String
  via : String := ""
deriving DecidableEq, Repr

structure Report where
  routeTraceCounts : List RouteTraceCount := []
  files : List String := []
  direct : List Finding := []
  likely : List Finding := []
  runtime : List Finding := []
  unobserved : List Finding := []
deriving DecidableEq, Repr

def provenanceTraceEntry : String := "trace_entry"
def provenanceTraceEntryCaller : String := "trace_entry_caller"
def provenanceCodeAttrs : String := "code_attrs"

/-! ### Routes -/

/-- `splitRoute`: the method in upper case and the path without its query. -/
def splitRoute (lib : Lib) (raw : String) : Option (String × String) :=
  match splitN2 (trimSpace raw) ' ' with
  | [m, p] =>
    let method := lib.toUpper (trimSpace m)
    let path := cutBefore (trimSpace p) '?'
    if method = "" ∨ path = "" then none
    else some (method, if hasPrefix path "/" then path else "/" ++ path)
  | _ => none

def isMethod (m : String) : Bool := m ≠ "" && m.toList.all fun c => 'A' ≤ c && c ≤ 'Z'

/-- The label that `RuntimeRoutes` gives a finding, if any. -/
def runtimeLabel (lib : Lib) (f : Finding) : Option String :=
  let raw := if trimSpace f.route = "" then trimSpace f.name else trimSpace f.route
  match splitN2 raw ' ' with
  | [_, p] =>
    if !hasPrefix (trimSpace p) "/" then none
    else match splitRoute lib raw with
      | some (method, path) => if isMethod method && !contains path " " then some (method ++ " " ++ path) else none
      | none => none
  | _ => none

/-- `RuntimeRoutes`: every route joined to the change at runtime, sorted, each once. -/
def runtimeRoutes (lib : Lib) (rep : Report) : List String :=
  (rep.runtime.filterMap (runtimeLabel lib)).dedup.insertionSort (· ≤ ·)

/-- The label that `ReplayableRoutes` gives a finding, if any. -/
def replayLabel (lib : Lib) (f : Finding) : Option String :=
  let raw := if trimSpace f.route = "" then trimSpace f.name else trimSpace f.route
  match splitRoute lib raw with
  | none => none
  | some (method, path) =>
    if method ∉ ["GET", "HEAD", "OPTIONS"] then none
    else if containsAny path "\x7b\x7d*" || contains path ".." then none
    else some (method ++ " " ++ path)

/-- `ReplayableRoutes`: the routes joined to the edit that can be replayed, in order, each once. -/
def replayableRoutes (lib : Lib) (rep : Report) : List String :=
  (rep.runtime.filterMap (replayLabel lib)).foldl (fun out label => if label ∈ out then out else out ++ [label]) []

/-- A segment of a route template that stands for any one segment. -/
def wildSegment (t : String) : Bool := (hasPrefix t "\x7b" && hasSuffix t "\x7d") || hasPrefix t ":"

/-- `RouteMatches`: whether a request hits a route. -/
def routeMatches (lib : Lib) (route method path : String) : Bool :=
  match splitRoute lib route with
  | none => false
  | some (rm, tmpl) =>
    if !lib.equalFold rm method then false
    else
      let ts := split (trim tmpl '/') '/'
      let ps := split (trim (cutBefore path '?') '/') '/'
      ts.length = ps.length && (ts.zip ps).all fun (t, p) => (wildSegment t && p ≠ "") || t = p

/-! ### Changes -/

structure Changes where
  bound : List String := []
  unanalyzed : List String := []
deriving DecidableEq, Repr

/-- `Inert`: files that do not change the built application. -/
def inert (p : String) : Bool :=
  pathExt p ∈ [".md", ".rst"] ||
    (let b := pathBase p
     hasPrefix b "LICENSE" || hasPrefix b "NOTICE" || hasPrefix b "AUTHORS" || hasPrefix b "CHANGELOG" ||
       b = "CODEOWNERS" || hasSuffix b "_test.go")

/-- The source ids that the direct findings bind a file to, unless one of them binds no changed lines. -/
def boundIDs (rep : Report) (p : String) : Option (List String) :=
  let found := rep.direct.filter (·.file = p)
  if found = [] ∨ found.any (fun f => f.reason ≠ "changed_lines" || f.sourceID = "") then none
  else some (found.map (·.sourceID))

def classify (rep : Report) : Changes :=
  let files := rep.files.filter fun p => !inert p
  { bound := (files.flatMap fun p => (boundIDs rep p).getD []).dedup.insertionSort (· ≤ ·)
    unanalyzed := (files.filter fun p => (boundIDs rep p).isNone).dedup.insertionSort (· ≤ ·) }

end Aquila.Impact

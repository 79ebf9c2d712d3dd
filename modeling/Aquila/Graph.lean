import Aquila.Ingest
import Aquila.Lib.Keyed

/-! `internal/graph`: what stored spans show of the running system. A map is a table of pairs in the order in which
    its keys came in; `traceEntries` is given an order of iteration. -/

namespace Aquila.Graph
open Ingest (Span)

def provenanceObservedParent : String := "observed_parent"
def maxPaths : Nat := 100
def maxServices : Nat := 500
def maxEdges : Nat := 2000

structure Service where
  name : String
  spanCount : Nat
deriving DecidableEq, Repr

structure Edge where
  src : String
  dst : String
  count : Nat
  provenance : String := provenanceObservedParent
deriving DecidableEq, Repr

structure Path where
  services : List String
  traces : Nat
  provenance : String := provenanceObservedParent
deriving DecidableEq, Repr

structure EntryRoute where
  traceID : String := ""
  spanID : String := ""
  method : String := ""
  route : String := ""
deriving DecidableEq, Repr

def find {α : Type} (m : List (String × α)) (k : String) : Option α := (Keyed.get (·.1) m k).map (·.2)

/-- The spans of one trace by their ids. `Build` takes no span without an id. -/
structure Trace where
  spans : List (String × Span) := []
  distinct : (spans.map (·.1)).Nodup := by simp
  named : "" ∉ spans.map (·.1) := by simp

namespace Trace

def ids (t : Trace) : List String := t.spans.map (·.1)

def get (t : Trace) (id : String) : Option Span := find t.spans id

/-- The last span with an id replaces those before it. -/
def put (t : Trace) (s : Span) (named : s.spanID ≠ "") : Trace where
  spans := Keyed.put (·.1) t.spans (s.spanID, s)
  distinct := Keyed.nodup_put t.distinct
  named := fun h => (Keyed.mem_map_put.mp h).elim t.named fun same => named same.symm

/-- The spans with a parent in the trace whose parent is `id`. -/
def children (t : Trace) (id : String) : List String :=
  if id ∈ t.ids then (t.spans.filter fun s => s.2.parentSpanID = id).map (·.1) else []

end Trace

/-! ### Entry routes -/

/-- What is known of the ancestors of a span. -/
structure Ancestry where
  complete : Bool := false
  entry : EntryRoute := {}
deriving DecidableEq, Repr

def routedServer (lib : Lib) (s : Span) : Bool :=
  lib.equalFold (trimSpace s.kind) "server" && trimSpace s.httpMethod ≠ "" && trimSpace s.httpRoute ≠ ""

/-- The way up from `cursor`: the spans whose ancestry is not known yet, and what is known of the last one's parent. The
    spans seen are those of the chain. -/
def walk (t : Trace) (resolved : List (String × Ancestry)) : (fuel : Nat) → (cursor : String) → (chain : List String) →
    Option (List String × Ancestry)
  | 0, _, _ => none
  | fuel + 1, cursor, chain =>
    match find resolved cursor with
    | some cached => some (chain, cached)
    | none =>
      match t.get cursor with
      | none => some (chain, {})
      | some node =>
        if cursor ∈ chain then some (chain, {})
        else if node.parentSpanID = "" then some (chain ++ [cursor], { complete := true })
        else walk t resolved fuel node.parentSpanID (chain ++ [cursor])

/-- One step of the way back down. -/
def settle (lib : Lib) (traceID : String) (t : Trace) (known : Ancestry × List (String × Ancestry)) (id : String) :
    Ancestry × List (String × Ancestry) :=
  let parent := match t.get id with
    | some node =>
      if known.1.complete && known.1.entry.spanID = "" && routedServer lib node then
        { known.1 with entry := { traceID, spanID := id, method := node.httpMethod, route := node.httpRoute } }
      else known.1
    | none => known.1
  (parent, Keyed.put (·.1) known.2 (id, parent))

/-- The ancestry of `id` and of the spans on its way up. -/
def resolve (lib : Lib) (traceID : String) (t : Trace) (resolved : List (String × Ancestry)) (id : String) :
    Option (List (String × Ancestry)) :=
  (walk t resolved (t.spans.length + 1) id []).map fun (chain, parent) =>
    (chain.reverse.foldl (settle lib traceID t) (parent, resolved)).2

/-- `traceEntries`, where `order` is the order in which the map is iterated. -/
def traceEntries (lib : Lib) (traceID : String) (t : Trace) (order : List String) :
    Option (List (String × EntryRoute)) :=
  (order.foldlM (resolve lib traceID t) []).map fun resolved =>
    resolved.filterMap fun (id, parent) => if parent.complete &&
      parent.entry.spanID ≠ "" then some (id, parent.entry) else none

/-! ### Services, edges and paths -/

/-- How often each key occurs. -/
def counts (keys : List String) : List (String × Nat) := keys.dedup.map fun k => (k, keys.count k)

def servicesFromCount (svcCount : List (String × Nat)) : List Service :=
  ((svcCount.map fun (name, n) => { name, spanCount := n }).insertionSort fun a b : Service =>
    b.spanCount < a.spanCount ∨ a.spanCount = b.spanCount ∧ a.name ≤ b.name).take maxServices

def edgesFromCount (edgeCount : List (String × Nat)) : List Edge :=
  ((edgeCount.filterMap fun (key, n) => (cut key "\x00").map fun (src, dst) => { src, dst, count := n }).insertionSort
    fun a b : Edge =>
    b.count < a.count ∨ a.count = b.count ∧ (a.src < b.src ∨ a.src = b.src ∧ a.dst ≤ b.dst)).take maxEdges

/-- The keys of the edges of a trace: the services of a parent and of its child. -/
def edgeKeys (t : Trace) : List String :=
  t.spans.filterMap fun (_, node) =>
    if node.parentSpanID = "" then none
    else match t.get node.parentSpanID with
      | none => none
      | some parent =>
        let src := parent.serviceName
        let dst := node.serviceName
        if src = "" ∨ dst = "" ∨ src = dst then none else some (src ++ "\x00" ++ dst)

/-- `walkPaths`: the keys of the paths from `id` down to spans without children. The spans on the way are not entered
    again, so a way is no longer than the trace. -/
def walkPaths (t : Trace) : (fuel : Nat) → (id : String) → (services visiting : List String) → List String
  | 0, _, _, _ => []
  | fuel + 1, id, services, visiting =>
    match t.get id with
    | none => []
    | some node =>
      if id ∈ visiting then []
      else
        let name := node.serviceName
        let next := if name ≠ "" ∧ services.getLast? ≠ some name then services ++ [name] else services
        if t.children id = [] then if next = [] then [] else [join "\x00" next]
        else (t.children id).flatMap fun child => walkPaths t fuel child next (id :: visiting)

/-- The keys of the paths of a trace, from each span without a parent in it. -/
def pathKeys (t : Trace) : List String :=
  (t.spans.filter fun s => s.2.parentSpanID = "" || (t.get s.2.parentSpanID).isNone).flatMap fun s =>
    walkPaths t (t.spans.length + 1) s.1 [] []

/-- `pathTraces` holds each key of a path with each trace that has it. -/
def pathsFromTraces (pathTraces : List (String × String)) : List Path :=
  (((pathTraces.map (·.1)).dedup.map fun key =>
    { services := if key = "" then [] else split key '\x00', traces := pathTraces.countP (·.1 = key) }).insertionSort
      fun a b : Path => b.traces < a.traces ∨ a.traces = b.traces ∧
        join "/" a.services ≤ join "/" b.services).take maxPaths

/-! ### Snapshots -/

structure Snapshot where
  entryBySpan : List ((String × String) × EntryRoute) := []
  entryRoutes : List EntryRoute := []
  services : List Service := []
  edges : List Edge := []
  paths : List Path := []
  spanCount : Nat := 0
  traceCount : Nat := 0
deriving DecidableEq, Repr

def Snapshot.entryForSpan (s : Snapshot) (traceID spanID : String) : Option EntryRoute :=
  (Keyed.get (·.1) s.entryBySpan (traceID, spanID)).map (·.2)

def group (spans : List Span) : List (String × Trace) :=
  spans.foldl (fun traces s =>
    if named : s.traceID = "" ∨ s.spanID = "" then traces
    else Keyed.put (·.1) traces (s.traceID, ((find traces s.traceID).getD {}).put s (not_or.mp named).2)) []

def entriesOf (lib : Lib) (traceID : String) (t : Trace) : List (String × EntryRoute) :=
  (traceEntries lib traceID t t.ids).getD []

def build (lib : Lib) (spans : List Span) : Snapshot :=
  let kept := spans.filter fun s => s.traceID ≠ "" && s.spanID ≠ ""
  let traces := group spans
  { entryBySpan := traces.flatMap fun (traceID, t) => (entriesOf lib traceID t).map fun (id, e) => ((traceID, id), e)
    entryRoutes :=
      (traces.flatMap fun (traceID, t) => ((entriesOf lib traceID t).filter fun (id, e) => e.spanID = id).map
        (·.2)).insertionSort
        fun a b => a.traceID < b.traceID ∨ a.traceID = b.traceID ∧ a.spanID ≤ b.spanID
    services := servicesFromCount (counts ((kept.map (·.serviceName)).filter (· ≠ "")))
    edges := edgesFromCount (counts (traces.flatMap fun (_, t) => edgeKeys t))
    paths := pathsFromTraces (traces.flatMap fun (traceID, t) => (pathKeys t).dedup.map fun key => (key, traceID))
    spanCount := kept.length
    traceCount := traces.length }

end Aquila.Graph

import Mathlib.Data.List.MinMax
import Aquila.Ingest.Otlp
import Aquila.Lib.Keyed

/-! `internal/ingest/window.go`, `memory.go` and `postgres.go`: the spans that a store keeps, and the newest traces
    among them. -/

namespace Aquila.Ingest

def defaultTraceWindow : Int := 50
def maxTraceWindow : Int := 200
def maxWindowSpans : Nat := 10000

def normalizeTraceWindow (n : Int) : Int :=
  if n ≤ 0 then defaultTraceWindow else if n > maxTraceWindow then maxTraceWindow else n

def clipService (s : List UInt8) : List UInt8 := (trimSpaceBytes s).take 128

/-! ### Traces -/

structure TraceInfo where
  id : String
  last : Time
  spans : List StoredSpan := []
deriving DecidableEq, Repr

def probeRoute (lib : Lib) (s : StoredSpan) : Bool :=
  lib.toLower (trimSpace s.httpRoute) ∈ ["/healthz", "/livez", "/readyz", "/health"] ||
    lib.toLower (trimSpace s.name) ∈ ["get /healthz", "head /healthz", "/healthz", "get /readyz", "get /livez"]

def probeOnly (lib : Lib) (spans : List StoredSpan) : Bool := spans.all (probeRoute lib)

def traceTouches (spans : List StoredSpan) (service : List UInt8) : Bool :=
  service = [] || spans.any fun s => bytes s.serviceName = service

def addTrace (traces : List TraceInfo) (s : StoredSpan) : List TraceInfo :=
  if s.traceID = "" then traces
  else
    let t := (Keyed.get TraceInfo.id traces s.traceID).getD { id := s.traceID, last := s.startTime }
    Keyed.put TraceInfo.id traces
      { t with spans := t.spans ++ [s], last := if s.startTime.after t.last then s.startTime else t.last }

def TraceInfo.newer (a b : TraceInfo) : Prop := b.last < a.last ∨ a.last = b.last ∧ b.id ≤ a.id

instance : DecidableRel TraceInfo.newer := fun _ _ => inferInstanceAs (Decidable (_ ∨ _))

def groupTraces (spans : List StoredSpan) : List TraceInfo := (spans.foldl addTrace []).insertionSort TraceInfo.newer

def StoredSpan.older (a b : StoredSpan) : Prop :=
  a.startTime < b.startTime ∨ a.startTime = b.startTime ∧ a.spanID ≤ b.spanID

instance : DecidableRel StoredSpan.older := fun _ _ => inferInstanceAs (Decidable (_ ∨ _))

def sortTraceSpans (spans : List StoredSpan) : List StoredSpan := spans.insertionSort StoredSpan.older

/-- The loop of `SelectWindow`, with the traces kept so far and their spans. -/
def keepTraces (lib : Lib) (n : Int) (service : List UInt8) : List TraceInfo → Int → List StoredSpan → List StoredSpan
  | [], _, out => out
  | info :: infos, kept, out =>
    if probeOnly lib info.spans then keepTraces lib n service infos kept out
    else if !traceTouches info.spans service then keepTraces lib n service infos kept out
    else
      let out := out ++ sortTraceSpans info.spans
      let kept := kept + 1
      if kept ≥ n ∨ out.length ≥ maxWindowSpans then out else keepTraces lib n service infos kept out

def selectWindow (lib : Lib) (spans : List StoredSpan) (maxTraces : Int) (service : List UInt8) : List StoredSpan :=
  let service := clipService service
  let n := normalizeTraceWindow maxTraces
  let out := keepTraces lib n service (groupTraces spans) 0 []
  if out.length > maxWindowSpans then out.take maxWindowSpans else out

/-! ### Stores -/

def spanKey (s : StoredSpan) : String := s.traceID ++ "/" ++ s.spanID

/-- The map of the spans, in the order in which their keys came. -/
structure Memory where
  spans : List StoredSpan := []
deriving DecidableEq, Repr

namespace Memory

def upsertSpans (m : Memory) (spans : List StoredSpan) : Memory := { spans := spans.foldl (Keyed.put spanKey) m.spans }

def listTraceWindow (lib : Lib) (m : Memory) (maxTraces : Int) (service : List UInt8) : List StoredSpan :=
  selectWindow lib m.spans maxTraces service

end Memory

/-- The rows of `aquila.spans`, of which no two have one `(trace_id, span_id)`. -/
structure Postgres where
  rows : List StoredSpan := []
deriving DecidableEq, Repr

namespace Postgres

def rowKey (s : StoredSpan) : String × String := (s.traceID, s.spanID)

/-- What is read back of a span: a status that is not positive is `NULL`, which reads as zero, and a `TIMESTAMPTZ` has
    microseconds. -/
def rowOf (s : StoredSpan) : StoredSpan :=
  { s with httpStatus := if s.httpStatus > 0 then s.httpStatus else 0, startTime := s.startTime.truncate microsecond }

def upsertSpans (p : Postgres) (spans : List StoredSpan) : Postgres :=
  { rows := spans.foldl (fun rows s => Keyed.put rowKey rows (rowOf s)) p.rows }

/-- `COALESCE(NULLIF(http_route, ''), span_name) NOT IN (…)`. -/
def notProbe (s : StoredSpan) : Bool :=
  (if s.httpRoute = "" then s.name else s.httpRoute) ∉ ["/healthz", "/livez", "/readyz", "/health", "GET /healthz",
    "HEAD /healthz"]

def traceRows (rows : List StoredSpan) (traceID : String) : List StoredSpan := rows.filter (·.traceID = traceID)

/-- `MAX(start_time)` of a trace. -/
def maxStart (rows : List StoredSpan) (traceID : String) : WithBot Time :=
  ((traceRows rows traceID).map (·.startTime)).maximum

def recent (rows : List StoredSpan) (limit : Int) (service : List UInt8) : List String :=
  let wanted := rows.filter fun s => service = [] || s.traceID ∈ (rows.filter fun t =>
    bytes t.serviceName = service).map (·.traceID)
  ((((wanted.map (·.traceID)).dedup.filter fun id => (traceRows wanted id).any notProbe).insertionSort
    fun a b => maxStart wanted b ≤ maxStart wanted a).take limit.toNat)

def traceWindowSQL (rows : List StoredSpan) (traces : Int) (limit : Nat) (service : List UInt8) : List StoredSpan :=
  ((rows.filter (·.traceID ∈ recent rows traces service)).insertionSort StoredSpan.older).take limit

def listTraceWindow (lib : Lib) (p : Postgres) (maxTraces : Int) (service : List UInt8) : List StoredSpan :=
  selectWindow lib (traceWindowSQL p.rows (normalizeTraceWindow maxTraces) maxWindowSpans (clipService service))
    maxTraces service

end Postgres

end Aquila.Ingest

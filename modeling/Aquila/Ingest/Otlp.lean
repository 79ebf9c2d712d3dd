import Aquila.Ingest.Sanitize

/-! `internal/ingest/otlp.go`: the spans of an export request that are kept. A message that is missing is one with
    no fields, as the getters of the protocol buffers have it. -/

namespace Aquila.Ingest

def otelTraceIDLen : Nat := 16
def otelSpanIDLen : Nat := 8
def maxSpansBatch : Int := 10000

/-! ### The request -/

inductive AnyValue where
  | string (s : List UInt8)
  | int (n : Int)
  | double (bits : UInt64)
  | bool (b : Bool)
  -- bytes, an array, a list of attributes, or nothing
  | other
deriving DecidableEq, Repr

structure KeyValue where
  key : List UInt8 := []
  value : AnyValue := .other
deriving DecidableEq, Repr

inductive SpanKind where
  | unspecified
  | internal
  | server
  | client
  | producer
  | consumer
deriving DecidableEq, Repr

inductive StatusCode where
  | unset
  | ok
  | error
deriving DecidableEq, Repr

structure OtlpSpan where
  traceId : List UInt8 := []
  spanId : List UInt8 := []
  parentSpanId : List UInt8 := []
  name : List UInt8 := []
  kind : SpanKind := .unspecified
  startTimeUnixNano : UInt64 := 0
  endTimeUnixNano : UInt64 := 0
  attributes : List KeyValue := []
  status : Option StatusCode := none
deriving DecidableEq, Repr

structure ResourceSpans where
  attributes : List KeyValue := []
  scopeSpans : List (List OtlpSpan) := []
deriving DecidableEq, Repr

structure Request where
  resourceSpans : List ResourceSpans := []
deriving DecidableEq, Repr

/-- A span with what no graph reads of it. -/
structure StoredSpan extends Span where
  statusCode : String := ""
  httpStatus : Int := 0
  startTime : Time := 0
  durationNS : Int := 0
deriving DecidableEq, Repr

structure Report where
  spans : List StoredSpan := []
  seen : Nat := 0
  dropped : Nat := 0
  truncated : Bool := false
deriving DecidableEq, Repr

def Report.rejected (r : Report) : Int :=
  let n := (r.seen : Int) - r.spans.length
  if n < 0 then 0 else n

/-! ### Attributes -/

def anyString (std : Std) : AnyValue → List UInt8
  | .string s => s
  | .int n => bytes (itoa n)
  | .double bits => bytes (std.formatFloat bits)
  | .bool b => bytes (if b then "true" else "false")
  | .other => []

/-- The value of the first key that is there. -/
def attr (attrs : List KeyValue) (keys : List String) : Option AnyValue :=
  keys.findSome? fun key => (attrs.find? fun kv => kv.key = bytes key).map (·.value)

def attrString (std : Std) (attrs : List KeyValue) (keys : List String) : List UInt8 :=
  match attr attrs keys with
  | none => []
  | some v => anyString std v

def attrInt (attrs : List KeyValue) (keys : List String) : Int :=
  match attr attrs keys with
  | some (.int n) => n
  | some (.string s) => (atoi (trimSpace (runesOf s))).getD 0
  | _ => 0

def httpRoute (std : Std) (attrs : List KeyValue) : List UInt8 :=
  (["http.route", "url.path", "http.target", "url.full", "http.url"].map fun key => attrString std attrs [key]).find?
    (· ≠ []) |>.getD []

/-! ### Spans -/

def validID (b : List UInt8) (n : Nat) : Bool := b.length = n && b.any (· ≠ 0)

def hexID (b : List UInt8) : String :=
  .ofList (b.flatMap fun c => [Nat.digitChar (c.toNat / 16), Nat.digitChar (c.toNat % 16)])

def spanKind : SpanKind → String
  | .internal => "internal"
  | .server => "server"
  | .client => "client"
  | .producer => "producer"
  | .consumer => "consumer"
  | .unspecified => ""

def statusCode : Option StatusCode → String
  | some .error => "error"
  | some .ok => "ok"
  | _ => ""

def splitMethodRoute (std : Std) (method route : String) : String × String :=
  let method := canonicalMethod std method
  let route := trimSpace route
  match cut route " " with
  | none => (method, route)
  | some (m, rest) =>
    if canonicalMethod std m ≠ "" then (if method = "" then canonicalMethod std m else method, trimSpace rest)
      else (method, route)

def normalizeSpan (std : Std) (service : String) (sp : OtlpSpan) : Option StoredSpan :=
  if !validID sp.traceId otelTraceIDLen || !validID sp.spanId otelSpanIDLen then none
  else if sp.startTimeUnixNano.toNat > 2 ^ 63 - 1 ∨ sp.endTimeUnixNano.toNat > 2 ^ 63 - 1 then none
  else
    let start : Time := sp.startTimeUnixNano.toNat
    let stop : Time := sp.endTimeUnixNano.toNat
    let route := sanitizeRoute std (httpRoute std sp.attributes)
    let method := canonicalMethod std (runesOf (attrString std sp.attributes ["http.request.method", "http.method"]))
    let (method, route) := splitMethodRoute std method route
    some
      { traceID := hexID sp.traceId
        spanID := hexID sp.spanId
        parentSpanID := if validID sp.parentSpanId otelSpanIDLen then hexID sp.parentSpanId else ""
        serviceName := service
        name := sanitizeName std sp.name
        kind := spanKind sp.kind
        statusCode := statusCode sp.status
        httpMethod := method
        httpRoute := route
        httpStatus := canonicalStatus (attrInt sp.attributes ["http.response.status_code", "http.status_code"])
        codeFunction := sanitizeText std (attrString std sp.attributes ["code.function.name",
          "code.function"]) maxString
        codeFile := sanitizeFile std (attrString std sp.attributes ["code.file.path", "code.filepath"])
        startTime := start
        durationNS := if stop.before start then 0 else stop - start }

/-! ### Reports -/

def addSpan (std : Std) (limit : Int) (service : String) (out : Report) (sp : OtlpSpan) : Report :=
  let out := { out with seen := out.seen + 1 }
  match normalizeSpan std service sp with
  | none => { out with dropped := out.dropped + 1 }
  | some span => if (out.spans.length : Int) ≥ limit then { out with truncated := true }
      else { out with spans := out.spans ++ [span] }

def serviceName (std : Std) (rs : ResourceSpans) : String :=
  let service := sanitizeText std (attrString std rs.attributes ["service.name"]) maxString
  if service = "" then "unknown" else service

def normalizeBatch (std : Std) (req : Option Request) (limit : Int) : Report :=
  match req with
  | none => {}
  | some req =>
    let limit := if limit ≤ 0 then maxSpansBatch else limit
    req.resourceSpans.foldl (fun out rs =>
      rs.scopeSpans.foldl (fun out ss => ss.foldl (addSpan std limit (serviceName std rs)) out) out) {}

def normalizeReport (std : Std) (req : Option Request) : Report := normalizeBatch std req maxSpansBatch

end Aquila.Ingest

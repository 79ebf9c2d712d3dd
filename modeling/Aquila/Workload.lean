import Aquila.Ingest
import Aquila.Replay

/-! `internal/replay/workload.go`: workloads taken from the routes of stored spans. -/

namespace Aquila.Replay
open Ingest (Span)

def maxSteps : Nat := 20
def provenanceSpanRoute : String := "span_route"

def skipKind (lib : Lib) (kind : String) : Bool :=
  lib.toLower (trimSpace kind) ∈ ["client", "producer", "consumer", "internal"]

def isHTTPMethod (s : String) : Bool := s ∈ ["GET", "POST", "PUT", "PATCH", "DELETE", "HEAD", "OPTIONS"]

/-- `routeParts`: the method and the path of a span, where the route may name the method too. -/
def routeParts (lib : Lib) (s : Span) : Option (String × String) :=
  let method := lib.toUpper (trimSpace s.httpMethod)
  let path := cutBefore (trimSpace s.httpRoute) '?'
  let (method, path) := match splitN2 path ' ' with
    | [left, right] =>
      if isHTTPMethod (lib.toUpper left) then (if method = "" then lib.toUpper left else method, right)
        else (method, path)
    | _ => (method, path)
  if method = "" ∨ path = "" then none
  else some (method, if hasPrefix path "/" then path else "/" ++ path)

/-- The request that a span gives, if it may be replayed. -/
def spanRequest (lib : Lib) (s : Span) : Option (String × String) :=
  if skipKind lib s.kind then none
  else match routeParts lib s with
    | some (method, path) => if safeReplay method path then some (method, path) else none
    | none => none

/-- The loop of `FromSpans`; `steps` holds the steps so far. -/
def fromSpansLoop (lib : Lib) : List Span → (steps : List Step) → List Step
  | [], steps => steps
  | s :: spans, steps =>
    match spanRequest lib s with
    | none => fromSpansLoop lib spans steps
    | some (method, path) =>
      if method ++ " " ++ path ∈ steps.map fun st => st.method ++ " " ++ st.path then fromSpansLoop lib spans steps
      else
        let steps := steps ++ [{ method, path, provenance := provenanceSpanRoute, service := s.serviceName }]
        if steps.length ≥ maxSteps then steps else fromSpansLoop lib spans steps

/-- `FromSpans`: requests from the routes of server spans, each once. -/
def fromSpans (lib : Lib) (spans : List Span) : List Step := fromSpansLoop lib spans []

end Aquila.Replay

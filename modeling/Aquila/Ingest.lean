import Aquila.Go

/-! `internal/ingest`: the spans that are stored. -/

namespace Aquila.Ingest

/-- The metadata that is retained of an OTLP span. -/
structure Span where
  traceID : String := ""
  spanID : String := ""
  parentSpanID : String := ""
  serviceName : String := ""
  name : String := ""
  kind : String := ""
  httpMethod : String := ""
  httpRoute : String := ""
  codeFunction : String := ""
  codeFile : String := ""
deriving DecidableEq, Repr

end Aquila.Ingest

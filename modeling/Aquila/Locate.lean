import Aquila.Ingest
import Aquila.Source

/-! `internal/locate`: spans bound to the functions of a source graph by their code attributes. -/

namespace Aquila.Locate
open Ingest (Span)
open Source (Node)

def provenanceCodeAttrs : String := "code_attrs"
def reasonMissingAttrs : String := "missing_code_attrs"
def reasonInvalidFile : String := "invalid_code_file"
def reasonNoFile : String := "no_file"
def reasonNoFunction : String := "no_function"
def reasonAmbiguous : String := "ambiguous"
def maxBindings : Nat := 2000
def maxUnmappedReturned : Nat := 200

/-- A span attached to one source node. -/
structure Binding where
  traceID : String := ""
  spanID : String := ""
  serviceName : String := ""
  spanName : String := ""
  codeFunction : String := ""
  codeFile : String := ""
  sourceID : String := ""
  sourceName : String := ""
  file : String := ""
  line : Int := 0
  httpMethod : String := ""
  httpRoute : String := ""
  provenance : String := ""
deriving DecidableEq, Repr

/-- A span that could not be bound without guessing. -/
structure Unmapped where
  traceID : String := ""
  spanID : String := ""
  serviceName : String := ""
  spanName : String := ""
  codeFunction : String := ""
  codeFile : String := ""
  reason : String := ""
deriving DecidableEq, Repr

structure Snapshot where
  bindings : List Binding := []
  unmapped : List Unmapped := []
  bound : Nat := 0
  unmappedCount : Nat := 0
  spanCount : Nat := 0
deriving DecidableEq, Repr

def normalizeFile (raw : String) : Option String :=
  let s := pathClean (replaceAll (trimSpace raw) '\\' '/')
  if s = "." ∨ s = "/" ∨ hasPrefix s "../" ∨ contains s "/../" then none
  else
    let s := trimPrefix (trimPrefix s "/") "examples/shop/"
    if s = "" ∨ contains s ".." then none else some s

/-- `functionName`: what follows the last dot, if anything does. -/
def functionName (codeFunction : String) : String :=
  let s := trimSpace codeFunction
  let last := s.toList.reverse.takeWhile (· ≠ '.')
  if last = [] then s else .ofList last.reverse

/-- `indexSource`: the functions of a file. -/
def funcs (g : Source.Snapshot) (file : String) : List Node :=
  g.nodes.filter fun n => n.kind = .function && n.file ≠ "" && n.file = file

def hasFile (g : Source.Snapshot) (file : String) : Bool :=
  g.nodes.any fun n => n.kind = .file && n.file ≠ "" && n.file = file

def unmapped (sp : Span) (reason : String) : Unmapped :=
  { traceID := sp.traceID, spanID := sp.spanID, serviceName := sp.serviceName, spanName := sp.name
    codeFunction := sp.codeFunction, codeFile := sp.codeFile, reason }

def missingAttrs (sp : Span) : Bool := trimSpace sp.codeFunction = "" || trimSpace sp.codeFile = ""

def binding (sp : Span) (fn : Node) : Binding :=
  { traceID := sp.traceID, spanID := sp.spanID, serviceName := sp.serviceName, spanName := sp.name
    codeFunction := sp.codeFunction, codeFile := sp.codeFile, sourceID := fn.id, sourceName := fn.name
    file := fn.file, line := fn.line, httpMethod := trimSpace sp.httpMethod, httpRoute := trimSpace sp.httpRoute
    provenance := provenanceCodeAttrs }

/-- The function that `bindOne` attaches the span to, or the reason why there is none. -/
def attach (g : Source.Snapshot) (sp : Span) : Except String Node :=
  if missingAttrs sp then .error reasonMissingAttrs
  else match normalizeFile sp.codeFile with
    | none => .error reasonInvalidFile
    | some file =>
      if !hasFile g file && (funcs g file).isEmpty then .error reasonNoFile
      else match (funcs g file).filter (·.name = functionName sp.codeFunction) with
        | [] => .error reasonNoFunction
        | [fn] => .ok fn
        | _ => .error reasonAmbiguous

def bindOne (g : Source.Snapshot) (sp : Span) : Except Unmapped Binding :=
  match attach g sp with
  | .ok fn => .ok (binding sp fn)
  | .error reason => .error (unmapped sp reason)

/-- The answer of `bindOne`, counted and kept within the limits. -/
def collect (one : Span → Except Unmapped Binding) (out : Snapshot) (sp : Span) : Snapshot :=
  if sp.traceID = "" ∨ sp.spanID = "" then out
  else
    let out := { out with spanCount := out.spanCount + 1 }
    match one sp with
    | .ok b =>
      { out with bound := out.bound + 1,
                 bindings := if out.bindings.length < maxBindings then out.bindings ++ [b] else out.bindings }
    | .error u =>
      { out with
        unmappedCount := out.unmappedCount + 1
        unmapped := if out.unmapped.length < maxUnmappedReturned then out.unmapped ++ [u] else out.unmapped }

/-- `Bind`. Without a source graph no span is bound. -/
def bind (g : Option Source.Snapshot) (spans : List Span) : Snapshot :=
  match g with
  | none => spans.foldl (collect fun sp =>
      .error (unmapped sp (if missingAttrs sp then reasonMissingAttrs else reasonNoFile))) {}
  | some g =>
    let out := spans.foldl (collect (bindOne g)) {}
    { out with
      bindings := out.bindings.insertionSort fun a b => a.traceID < b.traceID ∨ a.traceID = b.traceID ∧
        a.spanID ≤ b.spanID }

end Aquila.Locate

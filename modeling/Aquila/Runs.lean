import Aquila.Evidence
import Aquila.Jobs.Task
import Aquila.Lib.Keyed

/-! `internal/runs`: experiments that are kept, each under the first digits of the digest of its artifact. -/

namespace Aquila.Runs
open Evidence (Artifact Encoding schemaV3)
open Jobs (isHexDigit)

def defaultList : Int := 20
def maxList : Int := 50
def idLen : Nat := 16
def maxServiceName : Nat := 128

inductive Err where
  | notFound
  | other (text : String)
deriving DecidableEq, Repr

def Err.text : Err → String
  | notFound => "runs: not found"
  | other text => text

/-- One persisted experiment. -/
structure Record where
  id : String := ""
  recorded : Time := 0
  service : List UInt8 := []
  baselineSHA : String := ""
  dirty : Bool := false
  workloadDigest : String := ""
  artifactDigest : String := ""
  overall : String := ""
  blockers : List Validate.Blocker := []
  validated : Bool := false
  artifact : Artifact := { schema := "" }
deriving DecidableEq, Repr

/-- `NormalizeID`: sixteen lower-case hexadecimal digits, the first ones of at most 64. -/
def normalizeID (raw : String) : Option String :=
  let s := (trimSpace raw).toList.map asciiLower
  if s.length < idLen ∨ s.length > 64 then none
  else if !s.all isHexDigit then none
  else some (.ofList (s.take idLen))

/-- `FromArtifact`: the record of checked evidence. -/
def fromArtifact (lib : Lib) (enc : Encoding) (a : Artifact) : Except Err Record :=
  match (if a.schema = schemaV3 then Evidence.check lib enc.marshal a else Evidence.verify lib enc.marshal a) with
  | some e => .error (.other e)
  | none =>
    if a.artifactDigest = "" then .error (.other "runs: missing artifact digest")
    else match normalizeID (.ofList (a.artifactDigest.toList.take idLen)) with
      | none => .error (.other "runs: invalid artifact digest")
      | some id => .ok
        { id
          recorded := a.recorded
          service := a.service
          baselineSHA := a.baselineSHA
          dirty := a.dirty
          workloadDigest := a.workloadDigest
          artifactDigest := a.artifactDigest
          overall := a.result.overall
          validated := (a.decision lib).validated
          blockers := (a.decision lib).blockers
          artifact := a }

def prepareInsert (lib : Lib) (enc : Encoding) (rec : Record) : Except Err Record :=
  if rec.artifact.schema = "" then .error (.other "runs: missing artifact")
  else match fromArtifact lib enc rec.artifact with
    | .error e => .error e
    | .ok built => if rec.id ≠ "" ∧ rec.id ≠ built.id then .error (.other "runs: id does not match artifact")
        else .ok built

def clipLimit (n : Int) : Int := if n ≤ 0 then defaultList else if n > maxList then maxList else n

def clipService (s : List UInt8) : List UInt8 := (trimSpaceBytes s).take maxServiceName

/-- The order of `List`: newest first, then by id downwards. -/
def newer (a b : Record) : Prop := b.recorded < a.recorded ∨ a.recorded = b.recorded ∧ b.id ≤ a.id

instance : DecidableRel newer := fun _ _ => inferInstanceAs (Decidable (_ ∨ _))

/-- `summaries`: records without their artifacts. -/
def summaries (rs : List Record) : List Record := rs.map fun r => { r with artifact := { schema := "" } }

/-- A store, over the type of what it holds. Each call is given the error of its context, if that is done. -/
structure Store (σ : Type) where
  insert : (ctx : Option String) → Record → σ → σ × Except Err Record
  get : (ctx : Option String) → (id : String) → σ → Except Err Record
  list : (ctx : Option String) → (limit : Int) → (service : List UInt8) → σ → Except Err (List Record)

/-- The store in process memory: a map, as a table keyed by the id of the record, and the order of insertion. -/
structure Memory where
  byID : List Record := []
  order : List String := []
deriving DecidableEq, Repr

namespace Memory

def insert (lib : Lib) (enc : Encoding) (ctx : Option String) (rec : Record) (m : Memory) :
    Memory × Except Err Record :=
  match ctx with
  | some e => (m, .error (.other e))
  | none =>
    match prepareInsert lib enc rec with
    | .error e => (m, .error e)
    | .ok prepared =>
      match Keyed.get Record.id m.byID prepared.id with
      | some old =>
        if old.artifactDigest ≠ prepared.artifactDigest then (m, .error (.other "runs: id collision")) else (m, .ok old)
      | none => ({ byID := Keyed.put Record.id m.byID prepared, order := m.order ++ [prepared.id] }, .ok prepared)

def get (ctx : Option String) (id : String) (m : Memory) : Except Err Record :=
  match ctx with
  | some e => .error (.other e)
  | none =>
    match normalizeID id with
    | none => .error (.other "runs: invalid id")
    | some id =>
      match Keyed.get Record.id m.byID id with
      | none => .error .notFound
      | some rec => .ok rec

/-- The records in the order of their insertion. -/
def records (m : Memory) : List Record := m.order.map fun id => (Keyed.get Record.id m.byID id).getD {}

def list (ctx : Option String) (limit : Int) (service : List UInt8) (m : Memory) : Except Err (List Record) :=
  match ctx with
  | some e => .error (.other e)
  | none =>
    let want := clipService service
    let out := (m.records.filter fun r => want = [] || r.service = want).insertionSort newer
    .ok (summaries (out.take (clipLimit limit).toNat))

def store (lib : Lib) (enc : Encoding) : Store Memory := { insert := insert lib enc, get, list }

end Memory

/-- A row of `aquila.runs`. The JSON of an artifact is taken as lossless, so the column is the artifact. -/
structure Row where
  id : String
  recordedAt : Time
  baselineSHA : String
  dirty : Bool
  workloadDigest : String
  artifactDigest : String
  overall : String
  validated : Bool
  artifact : Artifact
deriving DecidableEq, Repr

/-- What a `TIMESTAMPTZ` column keeps of a time. -/
def timestamptz (t : Time) : Time := t.truncate microsecond

/-- The constraints `runs_overall_legal` and `runs_validated_requires_match`. -/
def Row.legal (r : Row) : Bool :=
  r.overall ∈ ["match", "differ", "incomplete"] && (!r.validated || r.overall = "match")

/-- The store in a table. -/
structure Postgres where
  rows : List Row := []
deriving DecidableEq, Repr

namespace Postgres

/-- The row that `insertSQL` writes. -/
def rowOf (rec : Record) : Row :=
  { id := rec.id
    recordedAt := timestamptz rec.recorded
    baselineSHA := rec.baselineSHA
    dirty := rec.dirty
    workloadDigest := rec.workloadDigest
    artifactDigest := rec.artifactDigest
    overall := rec.overall
    validated := rec.validated
    artifact := rec.artifact }

/-- The record that `Get` makes of a row. `getSQL` reads no service. -/
def record (lib : Lib) (r : Row) : Record :=
  { id := r.id
    recorded := r.recordedAt
    baselineSHA := r.baselineSHA
    dirty := r.dirty
    workloadDigest := r.workloadDigest
    artifactDigest := r.artifactDigest
    overall := r.overall
    validated := (r.artifact.decision lib).validated
    blockers := (r.artifact.decision lib).blockers
    artifact := r.artifact }

def get (lib : Lib) (enc : Encoding) (ctx : Option String) (id : String) (p : Postgres) : Except Err Record :=
  match normalizeID id with
  | none => .error (.other "runs: invalid id")
  | some id =>
    match ctx with
    | some e => .error (.other ("get run: " ++ e))
    | none =>
      match Keyed.get Row.id p.rows id with
      | none => .error .notFound
      | some r =>
        match Evidence.verify lib enc.marshal r.artifact with
        | some e => .error (.other e)
        | none => .ok (record lib r)

def insert (lib : Lib) (enc : Encoding) (ctx : Option String) (rec : Record) (p : Postgres) :
    Postgres × Except Err Record :=
  match prepareInsert lib enc rec with
  | .error e => (p, .error e)
  | .ok prepared =>
    match ctx with
    | some e => (p, .error (.other ("insert run: " ++ e)))
    | none =>
      if !(rowOf prepared).legal then (p, .error (.other "insert run: violates check constraint"))
      else if prepared.id ∈ p.rows.map Row.id then
        -- `ON CONFLICT (id) DO NOTHING` returns no row
        match get lib enc ctx prepared.id p with
        | .error e => (p, .error e)
        | .ok existing =>
          if existing.artifactDigest ≠ prepared.artifactDigest then (p, .error (.other "runs: id collision"))
          else (p, .ok existing)
      else ({ rows := p.rows ++ [rowOf prepared] }, .ok prepared)

/-- `ORDER BY recorded_at DESC, id DESC`. -/
def newerRow (a b : Row) : Prop := b.recordedAt < a.recordedAt ∨ a.recordedAt = b.recordedAt ∧ b.id ≤ a.id

instance : DecidableRel newerRow := fun _ _ => inferInstanceAs (Decidable (_ ∨ _))

/-- The record that `List` makes of a row. -/
def summary (lib : Lib) (enc : Encoding) (r : Row) : Except Err Record :=
  match Evidence.verify lib enc.marshal r.artifact with
  | some e => .error (.other e)
  | none => .ok { record lib r with service := r.artifact.service, artifact := { schema := "" } }

def list (lib : Lib) (enc : Encoding) (ctx : Option String) (limit : Int) (service : List UInt8) (p : Postgres) :
    Except Err (List Record) :=
  match ctx with
  | some e => .error (.other ("list runs: " ++ e))
  | none =>
    let want := clipService service
    let rows := (p.rows.filter fun r => want = [] || r.artifact.service = want).insertionSort newerRow
    (rows.take (clipLimit limit).toNat).mapM (summary lib enc)

def store (lib : Lib) (enc : Encoding) : Store Postgres :=
  { insert := insert lib enc, get := get lib enc, list := list lib enc }

end Postgres

end Aquila.Runs

import Aquila.Runs
import Aquila.Ingest.Window
import Aquila.Lib.Machine

/-! `internal/api/runs.go`: the handlers that keep runs and show them. -/

namespace Aquila

/-- `utf8.RuneStart`. -/
def runeStart (b : UInt8) : Bool := b &&& 0xc0 ≠ 0x80

namespace Api
open Evidence (Artifact Encoding maxBytes schemaV3)
open Runs (Record Store)

structure RunCreated where
  attestedBy : String
  id : String
  overall : String
  blockers : List Validate.Blocker
  validated : Bool
  artifactDigest : String
  baselineSHA : String
  dirty : Bool
  service : List UInt8
deriving DecidableEq, Repr

structure RunGetResponse where
  attestedBy : String
  id : String
  overall : String
  blockers : List Validate.Blocker
  validated : Bool
  artifactDigest : String
  baselineSHA : String
  dirty : Bool
  artifact : Artifact
deriving DecidableEq, Repr

inductive Body where
  | error (text : List UInt8)
  | created (run : RunCreated)
  | list (runs : List RunCreated)
  | run (run : RunGetResponse)
deriving DecidableEq, Repr

structure Response where
  status : Nat
  body : Body
deriving DecidableEq, Repr

def statusOK : Nat := 200
def statusBadRequest : Nat := 400
def statusNotFound : Nat := 404
def statusConflict : Nat := 409
def statusInternalServerError : Nat := 500
def statusServiceUnavailable : Nat := 503

def fail (status : Nat) (text : List UInt8) : Response := { status, body := .error text }

/-- The last index up to `n` at which a character starts. -/
def charStart (s : List UInt8) : Nat → Nat
  | 0 => 0
  | n + 1 => if (s[n + 1]?).all runeStart then n + 1 else charStart s n

/-- `clipQuery`: at most `n` bytes, cut before a character. -/
def clipQuery (s : List UInt8) (n : Nat) : List UInt8 :=
  if n = 0 ∨ s.length ≤ n then s else s.take (charStart s n)

def summaryFrom (rec : Record) : RunCreated :=
  { attestedBy := "client"
    id := rec.id
    overall := rec.overall
    validated := rec.validated
    blockers := rec.blockers
    artifactDigest := rec.artifactDigest
    baselineSHA := rec.baselineSHA
    dirty := rec.dirty
    service := rec.service }

/-- A validated record whose verdict is not written `match`, which the handlers do not show. -/
def garbled (rec : Record) : Bool := rec.validated && rec.overall ≠ "match"

section
variable {σ : Type} (lib : Lib) (enc : Encoding) (runStore : Option (Store σ)) (ctx : Option String)

/-- `handleCreateRun`. A body that cannot be read is `none`. -/
def handleCreateRun (body : Option (List UInt8)) (s : σ) : σ × Response :=
  match runStore with
  | none => (s, fail statusServiceUnavailable "runs unavailable")
  | some store =>
    -- a reader of one byte more than the limit fails on longer bodies
    match body.filter fun raw => raw.length ≤ maxBytes + 1 with
    | none => (s, fail statusBadRequest "invalid artifact")
    | some raw =>
      if raw.length > maxBytes then (s, fail statusBadRequest "artifact too large")
      else match Evidence.decode lib enc raw with
        | .error e => (s, fail statusBadRequest (bytes "invalid artifact: " ++ clipQuery (bytes e) 200))
        | .ok a =>
          if a.schema ≠ schemaV3 then (s, fail statusBadRequest "legacy schema")
          else match store.insert ctx { artifact := a } s with
            | (s, .error e) =>
              if contains e.text "id collision" then (s, fail statusConflict "id collision")
              else (s, fail statusInternalServerError "store failed")
            | (s, .ok rec) =>
              if garbled rec then (s, fail statusInternalServerError "store failed")
              else (s, { status := statusOK, body := .created (summaryFrom rec) })

def handleListRuns (limit : String) (service : List UInt8) (s : σ) : Response :=
  match runStore with
  | none => fail statusServiceUnavailable "runs unavailable"
  | some store =>
    match (if limit = "" then some Runs.defaultList else (atoi limit).filter fun n => 0 ≤ n) with
    | none => fail statusBadRequest "invalid limit"
    | some limit =>
      match store.list ctx limit (Ingest.clipService service) s with
      | .error _ => fail statusInternalServerError "store failed"
      | .ok list =>
        if list.any garbled then fail statusInternalServerError "store failed"
        else { status := statusOK, body := .list (list.map summaryFrom) }

def handleGetRun (id : String) (s : σ) : Response :=
  match runStore with
  | none => fail statusServiceUnavailable "runs unavailable"
  | some store =>
    match Runs.normalizeID id with
    | none => fail statusBadRequest "invalid id"
    | some id =>
      match store.get ctx id s with
      | .error .notFound => fail statusNotFound "not found"
      | .error (.other _) => fail statusInternalServerError "store failed"
      | .ok rec =>
        if garbled rec then fail statusInternalServerError "store failed"
        else
          { status := statusOK
            body := .run
              { attestedBy := "client"
                id := rec.id
                overall := rec.overall
                validated := rec.validated
                blockers := rec.blockers
                artifactDigest := rec.artifactDigest
                baselineSHA := rec.baselineSHA
                dirty := rec.dirty
                artifact := rec.artifact } }

end

/-! ### Requests -/

inductive Request where
  | createRun (body : Option (List UInt8))
  | listRuns (limit : String) (service : List UInt8)
  | getRun (id : String)
deriving DecidableEq, Repr

/-- A request and the error of its context, if that is done. -/
structure Call where
  request : Request
  ctx : Option String := none
deriving DecidableEq, Repr

def serve {σ : Type} (lib : Lib) (enc : Encoding) (runStore : Option (Store σ)) (s : σ) (call : Call) : σ × Response :=
  match call.request with
  | .createRun body => handleCreateRun lib enc runStore call.ctx body s
  | .listRuns limit service => (s, handleListRuns runStore call.ctx limit service s)
  | .getRun id => (s, handleGetRun runStore call.ctx id s)

/-- A server that keeps its runs in memory. -/
def machine (lib : Lib) (enc : Encoding) : Machine Call Response where
  State := Runs.Memory
  init := {}
  Step s call resp s' := serve lib enc (some (Runs.Memory.store lib enc)) s call = (s', resp)

end Api
end Aquila

import Aquila.Api
import Aquila.Jobs.Store
import Aquila.Wire

/-! `CreateOpts` as JSON, and the handler that takes it. Texts are read with the names as they are written, and
    without unknown fields. -/

namespace Aquila.Jobs
open Json

structure CreateWire where
  baselineRev : Revision
  patchRev : Revision
  baseline : String
  patch : String
  service : String
  deadline : Time
  workload : List Step
  plan : Plan.DAG
  impacted : List String
  changes : Impact.Changes
deriving DecidableEq, Repr

/-- What `encoding/json` does with times and bytes. -/
structure Texts extends Wire.Texts where
  -- `base64.StdEncoding`.
  encodeToString : List UInt8 → String
  decodeString : String → Option (List UInt8)
  decode_encode : ∀ b, decodeString (encodeToString b) = some b

/-- Bytes as the characters with their codes, for evaluating the model. -/
def Texts.plain : Texts :=
  { Wire.Texts.plain with
    encodeToString := fun b => .ofList (b.map fun x => Char.ofNat x.toNat)
    decodeString := fun s => some (s.toList.map fun c => UInt8.ofNat c.toNat)
    decode_encode := by
      intro b
      have byte (x : UInt8) : UInt8.ofNat (Char.ofNat x.toNat).toNat = x := by
        have := x.toNat_lt
        have code : (Char.ofNat x.toNat).toNat = x.toNat := by
          rw [Char.ofNat, dif_pos (show x.toNat.isValidChar from .inl (by omega))]
          rfl
        rw [code, UInt8.ofNat_toNat]
      rw [String.toList_ofList, List.map_map]
      exact congrArg some ((List.map_congr_left fun x _ => byte x).trans (List.map_id b)) }

/-! ### The record that is sent -/

def bodyCodec (t : Texts) : Codec (List UInt8) :=
  .text [] (fun b => some (t.encodeToString b)) t.decodeString fun {b s} h => by
    obtain rfl := Option.some.inj h
    exact t.decode_encode b

def stepCodec (t : Texts) : Codec Step := .struct
  (.always "method" .string <| .always "path" .string <| .nonzero "provenance" .string <| .nonzero "body"
    (bodyCodec t) .nil)
  ⟨fun s => (s.method, s.path, s.provenance, s.body, ()),
    fun (method, path, provenance, body, ()) => { method, path, provenance, body }, fun _ => rfl, fun _ => rfl⟩

/-- `workloadWire`. -/
def workloadCodec (t : Texts) : Codec (List Step) :=
  .struct (.always "steps" (.list false (stepCodec t)) .nil List.not_mem_nil)
  ⟨fun steps => (steps, ()), fun row => row.1, fun _ => rfl, fun _ => rfl⟩

def createCodec (t : Texts) : Codec CreateWire := .struct
  (.nonzero "baseline_rev" Wire.revision <| .nonzero "patch_rev" Wire.revision <| .always "baseline" .string <| .always
    "patch" .string <|
    .nonzero "service" .string <| .always "deadline" (.text 0 t.formatTime t.parseTime t.parse_format) <|
    .always "workload" (workloadCodec t) <| .always "plan" Wire.dag <| .nonzero "impacted" Wire.strings <| .nonzero
      "changes" Wire.changes .nil)
  ⟨fun w => (w.baselineRev, w.patchRev, w.baseline, w.patch, w.service, w.deadline, w.workload, w.plan, w.impacted,
    w.changes, ()), fun (baselineRev, patchRev, baseline, patch, service, deadline, workload, plan, impacted,
      changes, ()) =>
      { baselineRev, patchRev, baseline, patch, service, deadline, workload, plan, impacted, changes },
    fun _ => rfl, fun _ => rfl⟩

/-! ### Sending options -/

/-- The record that `MarshalJSON` fills. -/
def CreateOpts.wire (o : CreateOpts) : CreateWire :=
  { baseline := o.baseline
    baselineRev := o.baselineRev
    patchRev := o.patchRev
    patch := o.patch
    service := o.service
    deadline := o.deadline
    workload := workloadOf o.workload
    plan := o.plan
    impacted := o.impacted
    changes := o.changes }

/-- What `UnmarshalJSON` takes from the record. -/
def CreateWire.opts (w : CreateWire) : CreateOpts :=
  { baseline := w.baseline
    baselineRev := w.baselineRev
    patchRev := w.patchRev
    patch := w.patch
    service := w.service
    deadline := w.deadline
    workload := replayWorkload w.workload
    plan := w.plan
    impacted := w.impacted
    changes := w.changes }

/-- `MarshalJSON`, which fails if the deadline has no text. -/
def CreateOpts.marshalJSON (t : Texts) (o : CreateOpts) : Option (List UInt8) :=
  ((createCodec t).toDoc o.wire).map fun d => bytes (.ofList (write compact 0 d))

def CreateOpts.unmarshalJSON (t : Texts) (raw : List UInt8) : Option CreateOpts :=
  ((parse (scrubText (Utf8.runes raw))).bind (createCodec t).ofDoc).map CreateWire.opts

/-! ### `internal/api/jobs.go` -/

def maxJobBytes : Nat := 2 ^ 20

structure CreateResponse where
  status : Nat
  body : Except String Job

def statusTooManyRequests : Nat := 429

def refuse (status : Nat) (text : String) : CreateResponse := { status, body := .error text }

/-- `handleCreateJob`, over the `Create` of a store. A body that cannot be read is `none`. -/
def handleCreateJob {σ : Type} (t : Texts) (jobs : Option (CreateOpts → σ → σ × Resp))
    (body : Option (List UInt8)) (s : σ) :
    σ × CreateResponse :=
  match jobs with
  | none => (s, refuse Api.statusServiceUnavailable "jobs unavailable")
  | some create =>
    -- a reader of one byte more than the limit fails on longer bodies
    match body.filter fun raw => raw.length ≤ maxJobBytes + 1 with
    | none => (s, refuse Api.statusBadRequest "invalid job")
    | some raw =>
      if raw.length > maxJobBytes then (s, refuse Api.statusBadRequest "job too large")
      else match CreateOpts.unmarshalJSON t raw with
        | none => (s, refuse Api.statusBadRequest "invalid job")
        | some opts =>
          match create opts s with
          | (s, .job job) =>
            if job.validated then (s, refuse Api.statusInternalServerError "store failed")
            else (s, { status := Api.statusOK, body := .ok job })
          | (s, .err .busy) => (s, refuse Api.statusConflict "gateway occupied")
          | (s, .err .quota) => (s, refuse statusTooManyRequests "service quota exceeded")
          | (s, _) => (s, refuse Api.statusBadRequest "invalid job")

end Aquila.Jobs

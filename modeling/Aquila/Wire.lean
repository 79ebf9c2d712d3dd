import Aquila.Evidence
import Aquila.Lib.Codec

/-! The JSON text of an artifact: every record with the names, order and tags of its fields in the source. -/

namespace Aquila.Wire
open Json

/-- What `encoding/json` does with times and the texts of its errors. -/
structure Texts where
  -- The RFC 3339 text of a time, if its year has four digits.
  formatTime : Time → Option String
  parseTime : String → Option Time
  parse_format : ∀ {t s}, formatTime t = some s → parseTime s = some t
  marshalErr : Evidence.Artifact → String
  unmarshalErr : List UInt8 → String

/-- Times as their number of nanoseconds, for evaluating the model. -/
def Texts.plain : Texts where
  formatTime t := some (.ofList (writeInt t))
  parseTime s := (readInt s.toList).map (·.1)
  parse_format {t s} h := by
    have ends : Ends [] := by simp [Ends]
    have read := readInt_writeInt t ends
    cases h
    rw [List.append_nil] at read
    simp [read]
  marshalErr _ := "json: error calling MarshalJSON for type time.Time"
  unmarshalErr _ := "unexpected EOF"

abbrev strings : Codec (List String) := .list true .string

def revision : Codec Revision := .struct
  (.always "commit" .string <| .always "tree" .string <| .always "path" .string <| .always "dirty" .bool <|
    .always "source" .string .nil)
  ⟨fun r => (r.commit, r.tree, r.path, r.dirty, r.source, ()),
    fun (commit, tree, path, dirty, source, ()) => { commit, tree, path, dirty, source }, fun _ => rfl, fun _ => rfl⟩

def finding : Codec Impact.Finding := .struct
  (.nonzero "via" .string <| .nonzero "trace_id" .string <| .nonzero "span_id" .string <|
    .nonzero "entry_span_id" .string <| .always "name" .string <| .nonzero "file" .string <|
    .nonzero "source_id" .string <| .nonzero "service" .string <| .nonzero "path" .string <|
    .nonzero "route" .string <| .nonzero "line" .int <| .always "reason" .string <| .always "provenance" .string .nil)
  ⟨fun f => (f.via, f.traceID, f.spanID, f.entrySpanID, f.name, f.file, f.sourceID, f.service, f.path, f.route, f.line,
      f.reason, f.provenance, ()),
    fun (via, traceID, spanID, entrySpanID, name, file, sourceID, service, path, route, line, reason, provenance, ()) =>
      { via, traceID, spanID, entrySpanID, name, file, sourceID, service, path, route, line, reason, provenance },
    fun _ => rfl, fun _ => rfl⟩

def changes : Codec Impact.Changes := .struct
  (.nonzero "bound" strings <| .nonzero "unanalyzed" strings .nil)
  ⟨fun c => (c.bound, c.unanalyzed, ()), fun (bound, unanalyzed, ()) => { bound, unanalyzed },
    fun _ => rfl, fun _ => rfl⟩

def routeTraceCount : Codec Impact.RouteTraceCount := .struct
  (.always "route" .string <| .always "traces" .int .nil)
  ⟨fun c => (c.route, c.traces, ()), fun (route, traces, ()) => { route, traces }, fun _ => rfl, fun _ => rfl⟩

def routeAttribution : Codec Impact.RouteAttribution := .struct
  (.always "route" .string <| .always "provenance" .string <| .nonzero "via" .string .nil)
  ⟨fun a => (a.route, a.provenance, a.via, ()), fun (route, provenance, via, ()) => { route, provenance, via },
    fun _ => rfl, fun _ => rfl⟩

def request : Codec Evidence.Request := .struct
  (.always "method" .string <| .always "path" .string <| .nonzero "provenance" .string <| .nonzero
    "headers" strings .nil)
  ⟨fun r => (r.method, r.path, r.provenance, r.headers, ()),
    fun (method, path, provenance, headers, ()) => { method, path, provenance, headers }, fun _ => rfl, fun _ => rfl⟩

def impactSummary : Codec Evidence.ImpactSummary := .struct
  (.nonzero "runtime_findings" (.list true finding) <| .nonzero "changes" changes <| .always "files" .int <|
    .always "direct" .int <| .always "likely" .int <| .always "runtime" .int <| .always "unobserved" .int <|
    .nonzero "changed_files" strings <| .nonzero "direct_names" strings .nil)
  ⟨fun i => (i.runtimeFindings, i.changes, i.files, i.direct, i.likely, i.runtime, i.unobserved, i.changed,
    i.directName, ()), fun (runtimeFindings, changes, files, direct, likely, runtime, unobserved, changed,
      directName, ()) =>
      { runtimeFindings, changes, files, direct, likely, runtime, unobserved, changed, directName },
    fun _ => rfl, fun _ => rfl⟩

def coverage : Codec (Option Evidence.Coverage) := .pointer
  (.nonzero "trace_counts" (.list true routeTraceCount) <| .nonzero "attributions" (.list true routeAttribution) <|
    .always "impacted" (.list false .string) <| .always "exercised" (.list false .string) <|
    .always "missed" (.list false .string) <| .nonzero "rejected" strings .nil)
  ⟨fun c => (c.traceCounts, c.attributions, c.impacted, c.exercised, c.missed, c.rejected, ()),
    fun (traceCounts, attributions, impacted, exercised, missed, rejected, ()) =>
      { traceCounts, attributions, impacted, exercised, missed, rejected },
    fun _ => rfl, fun _ => rfl⟩

def step : Codec Plan.Step := .struct
  (.always "id" .string <| .always "kind" .string <| .always "required" .bool <| .nonzero "operator" .bool <|
    .nonzero "n" .int <| .nonzero "status" .int <| .nonzero "depends_on" strings <| .always "reason" .string .nil)
  ⟨fun s => (s.id, s.kind, s.required, s.operator, s.n, s.status, s.dependsOn, s.reason, ()),
    fun (id, kind, required, operator, n, status, dependsOn, reason, ()) =>
      { id, kind, required, operator, n, status, dependsOn, reason },
    fun _ => rfl, fun _ => rfl⟩

def dag : Codec Plan.DAG := .struct
  (.always "steps" (.list true step) <| .nonzero "notes" strings <| .nonzero "module" .string <|
    .nonzero "test_packages" strings <| .nonzero "health_path" .string .nil)
  ⟨fun d => (d.steps, d.notes, d.module, d.testPackages, d.healthPath, ()),
    fun (steps, notes, module, testPackages, healthPath, ()) => { steps, notes, module, testPackages, healthPath },
    fun _ => rfl, fun _ => rfl⟩

def summary : Codec Replay.Summary := .struct
  (.always "n" .int <| .nonzero "min_ns" .int <| .nonzero "median_ns" .int <| .nonzero "p95_ns" .int <|
    .nonzero "p99_ns" .int <| .always "has_p95" .bool <| .always "has_p99" .bool .nil)
  ⟨fun s => (s.n, s.minNS, s.medNS, s.p95NS, s.p99NS, s.hasP95, s.hasP99, ()),
    fun (n, minNS, medNS, p95NS, p99NS, hasP95, hasP99, ()) => { n, minNS, medNS, p95NS, p99NS, hasP95, hasP99 },
    fun _ => rfl, fun _ => rfl⟩

def stepLatency : Codec Replay.StepLatency := .struct
  (.always "method" .string <| .always "path" .string <| .always "baseline" summary <| .always "patch" summary .nil)
  ⟨fun l => (l.method, l.path, l.baseline, l.patch, ()),
    fun (method, path, baseline, patch, ()) => { method, path, baseline, patch }, fun _ => rfl, fun _ => rfl⟩

def delta : Codec Replay.Delta := .struct
  (.always "method" .string <| .always "path" .string <| .always "status" .string <| .nonzero "baseline_status" .int <|
    .nonzero "patch_status" .int <| .nonzero "notes" (.list true .bytes) .nil)
  ⟨fun d => (d.method, d.path, d.status, d.baselineStatus, d.patchStatus, d.notes, ()),
    fun (method, path, status, baselineStatus, patchStatus, notes, ()) =>
      { method, path, status, baselineStatus, patchStatus, notes },
    fun _ => rfl, fun _ => rfl⟩

def stepResult : Codec Plan.StepResult := .struct
  (.always "id" .string <| .always "kind" .string <| .always "verdict" .string <| .nonzero "notes"
    (.list true .bytes) <|
    .nonzero "latency" (.list true stepLatency) <| .nonzero "steps" (.list true delta) .nil)
  ⟨fun r => (r.id, r.kind, r.verdict, r.notes, r.latency, r.steps, ()),
    fun (id, kind, verdict, notes, latency, steps, ()) => { id, kind, verdict, notes, latency, steps },
    fun _ => rfl, fun _ => rfl⟩

def evidence : Codec Plan.Evidence := .struct
  (.always "overall" .string <| .always "steps" (.list true stepResult) <| .nonzero "notes" strings .nil)
  ⟨fun e => (e.overall, e.steps, e.notes, ()), fun (overall, steps, notes, ()) => { overall, steps, notes },
    fun _ => rfl, fun _ => rfl⟩

def blocker : Codec Validate.Blocker := .struct
  (.always "code" .string <| .nonzero "subject" .string .nil)
  ⟨fun b => (b.code, b.subject, ()), fun (code, subject, ()) => { code, subject }, fun _ => rfl, fun _ => rfl⟩

def artifact (t : Texts) : Codec Evidence.Artifact := .struct
  (.nonzero "baseline_rev" revision <| .nonzero "patch_rev" revision <| .always "schema" .string <|
    .always "recorded_at" (.text 0 t.formatTime t.parseTime t.parse_format) <| .always "baseline" .string <|
    .always "patch" .string <| .always "baseline_sha" .string <| .always "dirty" .bool <| .nonzero "service" .bytes <|
    .always "workload_digest" .string <| .always "artifact_digest" .string <| .always "workload"
      (.list false request) <|
    .always "impact" impactSummary <| .nonzero "coverage" coverage <| .always "plan" dag <| .always "result" evidence <|
    .always "validated" .bool <| .nonzero "blockers" (.list true blocker) .nil)
  ⟨fun a => (a.baselineRev, a.patchRev, a.schema, a.recorded, a.baseline, a.patch, a.baselineSHA, a.dirty, a.service,
      a.workloadDigest, a.artifactDigest, a.workload, a.impact, a.coverage, a.plan, a.result, a.validated,
        a.blockers, ()),
    fun (baselineRev, patchRev, schema, recorded, baseline, patch, baselineSHA, dirty, service, workloadDigest,
        artifactDigest, workload, impact, coverage, plan, result, validated, blockers, ()) =>
      { baselineRev, patchRev, schema, recorded, baseline, patch, baselineSHA, dirty, service, workloadDigest,
        artifactDigest, workload, impact, coverage, plan, result, validated, blockers },
    fun _ => rfl, fun _ => rfl⟩

/-- `encoding/json` on artifacts. Bytes of a text that are not UTF-8 are read as replacement characters. -/
def json (t : Texts) : Evidence.Encoding :=
  { marshal := fun a => ((artifact t).toDoc a).map fun d => .ofList (write compact 0 d)
    marshalIndent := fun a =>
      match (artifact t).toDoc a with
      | some d => .ok (.ofList (write indented 0 d))
      | none => .error (t.marshalErr a)
    unmarshal := fun raw =>
      match (parse (scrubText (Utf8.runes raw))).bind (artifact t).ofDoc with
      | some a => .ok a
      | none => .error (t.unmarshalErr raw) }

end Aquila.Wire

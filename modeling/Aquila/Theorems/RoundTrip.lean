import Aquila.Wire
import Aquila.Theorems.Checked

/-! Evidence that is marshalled and decoded again. -/

namespace Aquila.Evidence
open Wire (Texts artifact json)
open Json (write indented scrubText parse)
variable {a : Artifact} {raw : List UInt8} {t : Texts}

theorem marshal_ok {lib : Lib} {enc : Encoding} :
    marshal lib enc a = .ok raw ↔
      check lib enc.marshal a = none ∧
        ∃ text, enc.marshalIndent a = .ok text ∧ raw = bytes (text ++ "\n") ∧ raw.length ≤ maxBytes := by
  unfold marshal
  cases check lib enc.marshal a with
  | some e => simp
  | none =>
    cases enc.marshalIndent a with
    | error e => simp
    | ok text =>
      simp only [Except.ok.injEq, exists_eq_left', true_and]
      by_cases large : (bytes (text ++ "\n")).length > maxBytes
      · rw [if_pos large]
        refine iff_of_false (by simp) fun ⟨same, small⟩ => ?_
        rw [same] at small
        omega
      · rw [if_neg large, Except.ok.injEq, eq_comm]
        exact ⟨fun same => ⟨same, same ▸ not_lt.mp large⟩, And.left⟩

theorem decode_ok {lib : Lib} {enc : Encoding} :
    decode lib enc raw = .ok a ↔
      (raw.length ≠ 0 ∧ raw.length ≤ maxBytes) ∧ enc.unmarshal raw = .ok a ∧
        (if a.schema = schemaV3 then check lib enc.marshal a else verify lib enc.marshal a) = none := by
  unfold decode
  by_cases sized : raw.length ≠ 0 ∧ raw.length ≤ maxBytes
  · rw [if_neg sized.1, if_neg (not_lt.mpr sized.2)]
    cases enc.unmarshal raw with
    | error e => simp
    | ok b =>
      dsimp only
      cases checked : if b.schema = schemaV3 then check lib enc.marshal b else verify lib enc.marshal b with
      | some e =>
        refine iff_of_false (by simp) fun ⟨_, same, passed⟩ => ?_
        cases same
        simp [checked] at passed
      | none =>
        simp only [sized, true_and, Except.ok.injEq, ne_eq, not_false_eq_true]
        exact ⟨fun same => ⟨same, same ▸ checked⟩, And.left⟩
  · refine iff_of_false ?_ fun h => sized h.1
    split_ifs with empty large
    · simp
    · simp
    · exact absurd ⟨empty, not_lt.mp large⟩ sized

/-! ### The text of an artifact -/

theorem plain_artifact :
    (artifact t).Plain a ↔ Utf8.Valid a.service ∧ ∀ r ∈ a.result.steps, Plan.ValidNotes r := by
  simp [Plan.ValidNotes, Plan.ValidDeltas, artifact, Wire.revision, Wire.request, Wire.impactSummary,
    Wire.finding, Wire.changes, Wire.coverage, Wire.routeTraceCount, Wire.routeAttribution, Wire.dag, Wire.step,
      Wire.evidence,
    Wire.stepResult, Wire.stepLatency, Wire.summary, Wire.delta, Wire.blocker]

theorem json_marshalIndent {text : String} :
    (json t).marshalIndent a = .ok text ↔ ∃ d, (artifact t).toDoc a = some d ∧ text = .ofList (write indented 0 d) := by
  simp only [json]
  cases (artifact t).toDoc a with
  | none => simp
  | some d => simp [eq_comm]

theorem json_unmarshal_write {d : Json.Doc} :
    (json t).unmarshal (bytes (.ofList (write indented 0 d) ++ "\n")) = .ok a ↔
    (artifact t).ofDoc d.scrub = some a := by
  have chars : scrubText (Utf8.runes (bytes (.ofList (write indented 0 d) ++ "\n"))) =
    write indented 0 d ++ ['\n'] := by
    rw [bytes_eq_encode, Utf8.runes_encode, Json.scrubText_some]
    simp
  have document : parse (write indented 0 d ++ ['\n']) = some d.scrub :=
    Json.parse_write indented d (Json.ends_cons (by decide) [])
  simp only [json, chars, document, Option.bind_some]
  cases (artifact t).ofDoc d.scrub <;> simp

theorem decode_marshal {lib : Lib} (accepted : marshal lib (json t) a = .ok raw)
    (plain : (artifact t).Plain a) : decode lib (json t) raw = .ok a := by
  obtain ⟨checked, text, indent, rfl, small⟩ := marshal_ok.mp accepted
  obtain ⟨d, hd, rfl⟩ := json_marshalIndent.mp indent
  have whole := Json.Doc.scrub_of_holes (((artifact t).plain_iff hd).mpr plain)
  have read := json_unmarshal_write.mpr (whole.symm ▸ (artifact t).ofDoc_toDoc hd plain)
  have current : a.schema = schemaV3 := (check_eq_none.mp checked).2.1
  refine decode_ok.mpr ⟨⟨fun empty => ?_, small⟩, read, (if_pos current).trans checked⟩
  have nothing : bytes (.ofList (write indented 0 d) ++ "\n") = bytes "" := List.length_eq_zero_iff.mp empty
  simpa using congrArg String.toList (bytes_injective nothing)

theorem marshal_of_short {lib : Lib} (checked : check lib (json t).marshal a = none)
    (short : ((artifact t).toDoc a).any (fun d => (write indented 0 d).length < 200000) = true) :
    ∃ raw, marshal lib (json t) a = .ok raw := by
  obtain ⟨d, hd, short⟩ := (Option.any_eq_true _ _).mp short
  refine ⟨_, marshal_ok.mpr ⟨checked, _, json_marshalIndent.mpr ⟨d, hd, rfl⟩, rfl, ?_⟩⟩
  have size := Utf8.length_encode_le (String.ofList (write indented 0 d) ++ "\n").toList
  have chars : (String.ofList (write indented 0 d) ++ "\n").toList.length = (write indented 0 d).length + 1 := by simp
  have few : (write indented 0 d).length < 200000 := of_decide_eq_true short
  rw [← bytes_eq_encode, chars] at size
  rw [maxBytes]
  omega

namespace Sample

def lib : Lib := { Lib.plain with sha256 := fun _ => "0123456789abcdef" }

def testDAG : Plan.DAG := { steps := [{
    id := "tests", kind := Plan.kindTests }], module := "shop", testPackages := ["./cart"] }

def testWorld (output : List UInt8) : Plan.World := { sampleWorld with goTest := fun _ _ => .failed output }

def testResult (output : List UInt8) : Plan.Evidence :=
  match Plan.execute lib (testWorld output) testDAG "http://base:1" "http://patch:1" [] with
  | .ok ev => ev
  | .error _ => {}

def testInput (output : List UInt8) : Input :=
  { baseline := "http://base:1", patch := "http://patch:1", now := second, plan := testDAG,
    result := testResult output }

def tested (output : List UInt8) : Artifact := build lib (json .plain).marshal 0 (testInput output)

theorem marshal_tested : ∃ raw, marshal lib (json .plain) (tested "FAIL") = .ok raw := by
  have checked : check lib (json .plain).marshal (tested "FAIL") = none := check_build (by decide +kernel)
  exact marshal_of_short checked (by decide +kernel)

end Sample

end Aquila.Evidence

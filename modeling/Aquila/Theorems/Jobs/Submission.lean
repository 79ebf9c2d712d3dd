import Aquila.Jobs.Submission

/-! Options that are sent and read again. -/

namespace Aquila.Jobs
open Json

variable {t : Texts} {o : CreateOpts} {raw : List UInt8}

theorem plain_createCodec (w : CreateWire) : (createCodec t).Plain w := by
  simp only [createCodec, workloadCodec, stepCodec, bodyCodec, Wire.revision, Wire.dag, Wire.step, Wire.changes,
    plain_struct, plain_always, plain_nonzero, plain_string, plain_bool, plain_int, plain_list, plain_nil,
      Equiv.coe_fn_mk, implies_true, true_and, and_true]
  exact ⟨trivial, fun _ _ => trivial⟩

theorem unmarshalJSON_write {d : Doc} (plain : d.holes = 0) :
    CreateOpts.unmarshalJSON t (bytes (.ofList (write compact 0 d))) = ((createCodec t).ofDoc d).map
    CreateWire.opts := by
  have chars : scrubText (Utf8.runes (bytes (.ofList (write compact 0 d)))) = write compact 0 d := by
    rw [bytes_eq_encode, Utf8.runes_encode, scrubText_some, String.toList_ofList]
  have document : parse (write compact 0 d ++ []) = some d.scrub := parse_write compact d (by simp [Json.Ends])
  rw [List.append_nil, Doc.scrub_of_holes plain] at document
  rw [CreateOpts.unmarshalJSON, chars, document, Option.bind_some]

theorem unmarshalJSON_marshalJSON (sent : o.marshalJSON t = some raw) :
    CreateOpts.unmarshalJSON t raw = some o.wire.opts := by
  obtain ⟨d, hd, rfl⟩ := Option.map_eq_some_iff.mp sent
  have plain := plain_createCodec (t := t) o.wire
  rw [unmarshalJSON_write (((createCodec t).plain_iff hd).mpr plain), (createCodec t).ofDoc_toDoc hd plain,
    Option.map_some]

theorem opts_wire (o : CreateOpts) :
    o.wire.opts = { o with workload := o.workload.map fun s => { s with headers := [], service := "" } } := by
  have steps : replayWorkload (workloadOf o.workload) = o.workload.map fun s =>
    { s with headers := [], service := "" } := by
    rw [replayWorkload, workloadOf, List.map_map]
    rfl
  rw [CreateWire.opts, CreateOpts.wire, steps]

/-- Options that are sent come back as they were exactly if no step of their workload names a service. -/
theorem unmarshalJSON_eq_iff (t : Texts) (o : CreateOpts) (headers : ∀ s ∈ o.workload, s.headers = [])
    (raw : List UInt8)
    (sent : o.marshalJSON t = some raw) : CreateOpts.unmarshalJSON t raw = some o ↔
    ∀ s ∈ o.workload, s.service = "" := by
  rw [unmarshalJSON_marshalJSON sent, opts_wire, Option.some.injEq]
  constructor
  · intro same s hs
    have steps := congrArg CreateOpts.workload same
    have one := List.map_inj_left.mp (steps.trans (List.map_id o.workload).symm) s hs
    exact (congrArg Replay.Step.service one).symm
  · intro none
    have steps : (o.workload.map fun s => { s with headers := [], service := "" }) = o.workload := by
      refine (List.map_congr_left fun s hs => ?_).trans (List.map_id o.workload)
      rw [← headers s hs, ← none s hs]
      rfl
    rw [steps]

namespace Sample

def submitted (service : String) : CreateOpts :=
  { baseline := "http://a", patch := "http://b",
    workload := [{ method := "POST", path := "/checkout", body := [123, 125], service }],
    plan := { steps := [{ id := "env", kind := "env" }] } }

end Sample

theorem unmarshalJSON_eq_iff_plain : ∃ raw, (Sample.submitted "").marshalJSON Texts.plain = some raw ∧
    CreateOpts.unmarshalJSON Texts.plain raw = some (Sample.submitted "") := by
  obtain ⟨raw, sent⟩ : ∃ raw, (Sample.submitted "").marshalJSON Texts.plain = some raw := ⟨_, rfl⟩
  exact ⟨raw, sent, (unmarshalJSON_eq_iff Texts.plain _ (by decide) raw sent).mpr (by decide)⟩

/-- The service of a step is lost on the way. -/
theorem unmarshalJSON_service : ∃ raw, (Sample.submitted "shop").marshalJSON Texts.plain = some raw ∧
    (∀ s ∈ (Sample.submitted "shop").workload, s.headers = []) ∧
    (CreateOpts.unmarshalJSON Texts.plain raw).map (·.workload.map (·.service)) = some [""] ∧
    (Sample.submitted "shop").workload.map (·.service) = ["shop"] := by
  obtain ⟨raw, sent⟩ : ∃ raw, (Sample.submitted "shop").marshalJSON Texts.plain = some raw := ⟨_, rfl⟩
  refine ⟨raw, sent, by decide, ?_, rfl⟩
  rw [unmarshalJSON_marshalJSON sent]
  rfl

end Aquila.Jobs

import Aquila.Api
import Aquila.Theorems.Jobs.Build
import Aquila.Theorems.RoundTrip

/-! Runs that are kept and shown: what a request leaves in the store, and when every kept run can be shown. -/

namespace Aquila.Runs
open Evidence (Artifact Encoding schemaV3)
open Jobs (isHexDigit)

/-! ### Ids -/

theorem normalizeID_hex {raw id : String} (h : normalizeID raw = some id) :
    id.toList.length = idLen ∧ id.toList.all isHexDigit = true := by
  unfold normalizeID at h
  dsimp only at h
  split_ifs at h with sized digits
  obtain rfl := Option.some.inj h
  rw [String.toList_ofList]
  refine ⟨?_, ?_⟩
  · rw [List.length_take]
    omega
  · simp only [Bool.not_eq_true', Bool.not_eq_false] at digits
    exact List.all_eq_true.mpr fun c hc => List.all_eq_true.mp digits c (List.mem_of_mem_take hc)

theorem normalizeID_idem {raw id : String} (h : normalizeID raw = some id) : normalizeID id = some id := by
  obtain ⟨len, hex⟩ := normalizeID_hex h
  have sized : ¬(id.toList.length < idLen ∨ id.toList.length > 64) := by rw [len, idLen]; omega
  simp only [normalizeID, Jobs.lower_trimSpace_hex hex, if_neg sized, hex, Bool.not_true, Bool.false_eq_true, if_false]
  rw [List.take_of_length_le len.le, String.ofList_toList]

/-! ### Records -/

/-- The record that checked evidence with an id becomes. -/
def recordOf (lib : Lib) (a : Artifact) (id : String) : Record :=
  { id
    recorded := a.recorded
    service := a.service
    baselineSHA := a.baselineSHA
    dirty := a.dirty
    workloadDigest := a.workloadDigest
    artifactDigest := a.artifactDigest
    overall := a.result.overall
    validated := (a.decision lib).validated
    blockers := (a.decision lib).blockers
    artifact := a }

theorem fromArtifact_ok {lib : Lib} {enc : Encoding} {a : Artifact} {r : Record} :
    fromArtifact lib enc a = .ok r ↔
      (if a.schema = schemaV3 then Evidence.check lib enc.marshal a else Evidence.verify lib enc.marshal a) = none ∧
        a.artifactDigest ≠ "" ∧ ∃ id, normalizeID (.ofList (a.artifactDigest.toList.take idLen)) = some id ∧
          r = recordOf lib a id := by
  unfold fromArtifact
  cases (if a.schema = schemaV3 then Evidence.check lib enc.marshal a else Evidence.verify lib enc.marshal a) with
  | some e => simp
  | none =>
    by_cases missing : a.artifactDigest = ""
    · simp [missing]
    · cases normalizeID (.ofList (a.artifactDigest.toList.take idLen)) with
      | none => simp [missing]
      | some id =>
        simp only [missing, if_false, Except.ok.injEq, true_and, ne_eq, not_false_eq_true, Option.some.injEq,
          exists_eq_left']
        exact eq_comm

theorem prepareInsert_ok {lib : Lib} {enc : Encoding} {a : Artifact} {r : Record}
    (h : prepareInsert lib enc { artifact := a } = .ok r) : fromArtifact lib enc a = .ok r := by
  unfold prepareInsert at h
  dsimp only at h
  split_ifs at h
  cases built : fromArtifact lib enc a with
  | error e => simp [built] at h
  | ok b => simpa [built] using h

/-! ### Memory -/

namespace Memory
variable {lib : Lib} {enc : Encoding} {m m' : Memory} {rec : Record} {res : Except Err Record}

/-- The two tables hold the same records, under normalized ids. -/
structure Rep (m : Memory) : Prop where
  order : m.order = m.byID.map Record.id
  ids : (m.byID.map Record.id).Nodup
  normal : ∀ r ∈ m.byID, normalizeID r.id = some r.id

/-- What an insertion does. -/
inductive Inserts (lib : Lib) (enc : Encoding) (rec : Record) (m : Memory) : Memory → Except Err Record → Prop
  | refused (e : Err) : Inserts lib enc rec m m (.error e)
  | known {old : Record} : old ∈ m.byID → Inserts lib enc rec m m (.ok old)
  | added {r : Record} : prepareInsert lib enc rec = .ok r → r.id ∉ m.byID.map Record.id →
      Inserts lib enc rec m { byID := m.byID ++ [r], order := m.order ++ [r.id] } (.ok r)

theorem inserts {ctx : Option String} (h : insert lib enc ctx rec m = (m', res)) : Inserts lib enc rec m m' res := by
  unfold insert at h
  cases ctx with
  | some e =>
    obtain ⟨rfl, rfl⟩ := Prod.mk.inj h
    exact .refused _
  | none =>
    cases prepared : prepareInsert lib enc rec with
    | error e =>
      simp only [prepared] at h
      obtain ⟨rfl, rfl⟩ := Prod.mk.inj h
      exact .refused e
    | ok r =>
      cases found : Keyed.get Record.id m.byID r.id with
      | some old =>
        simp only [prepared, found] at h
        split_ifs at h
        · obtain ⟨rfl, rfl⟩ := Prod.mk.inj h
          exact .refused _
        · obtain ⟨rfl, rfl⟩ := Prod.mk.inj h
          exact .known (Keyed.get_eq_some found).1
      | none =>
        have new := Keyed.get_eq_none_iff.mp found
        simp only [prepared, found, Keyed.put_of_not_mem new] at h
        obtain ⟨rfl, rfl⟩ := Prod.mk.inj h
        exact .added prepared new

theorem Rep.empty : Rep {} := ⟨rfl, .nil, fun _ h => absurd h List.not_mem_nil⟩

theorem Rep.records (rep : Rep m) : m.records = m.byID := by
  rw [Memory.records, rep.order, List.map_map]
  refine (List.map_congr_left fun r hr => ?_).trans (List.map_id _)
  simp [Keyed.get_of_mem rep.ids hr]

theorem Rep.listed (rep : Rep m) {limit : Int} {service : List UInt8} {out : List Record}
    (h : list none limit service m = .ok out) :
    ∀ r ∈ out, ∃ r₀ ∈ m.byID, r = { r₀ with artifact := { schema := "" } } := by
  obtain rfl := Except.ok.inj h
  intro r hr
  obtain ⟨r₀, hr₀, rfl⟩ := List.mem_map.mp hr
  have sorted := List.mem_of_mem_take hr₀
  rw [(List.perm_insertionSort _ _).mem_iff, rep.records] at sorted
  exact ⟨r₀, List.mem_of_mem_filter sorted, rfl⟩

theorem insert_again (ctx : Option String) :
    insert lib enc ctx rec (insert lib enc ctx rec m).1 = insert lib enc ctx rec m := by
  unfold insert
  cases ctx with
  | some e => rfl
  | none =>
    cases prepareInsert lib enc rec with
    | error e => rfl
    | ok prepared =>
      dsimp only
      cases found : Keyed.get Record.id m.byID prepared.id with
      | some old =>
        dsimp only
        split_ifs with other
        · simp only [found, if_pos other]
        · simp only [found, if_neg other]
      | none => simp only [Keyed.get_put_self, ne_eq, not_true_eq_false, if_false]

end Memory

end Aquila.Runs

namespace Aquila.Api
open Evidence (Artifact Encoding schemaV3)
open Runs (Record Memory)
open Wire (json)

section
variable {lib : Lib} {enc : Encoding} {m m' : Memory} {ctx : Option String} {body : Option (List UInt8)}
  {resp : Response}

/-! ### Requests that keep runs -/

/-- What a `POST` does: it is refused and changes nothing, or it hands the evidence of its body to the store. -/
inductive Creates (lib : Lib) (enc : Encoding) (m : Memory) : Option (List UInt8) → Memory → Response → Prop
  | refused {body : Option (List UInt8)} {resp : Response} : resp.status ≠ statusOK → Creates lib enc m body m resp
  | inserted {raw : List UInt8} {a : Artifact} {rec : Record} {m' : Memory} :
      Evidence.decode lib enc raw = .ok a → a.schema = schemaV3 →
      Memory.Inserts lib enc { artifact := a } m m' (.ok rec) →
      Creates lib enc m (some raw) m' (if garbled rec then fail statusInternalServerError "store failed"
        else { status := statusOK, body := .created (summaryFrom rec) })

theorem handleCreateRun_creates
    (h : handleCreateRun lib enc (some (Memory.store lib enc)) ctx body m = (m', resp)) :
    Creates lib enc m body m' resp := by
  have refuse : ∀ {status text}, status ≠ statusOK → (m, fail status text) = (m', resp) →
    Creates lib enc m body m' resp := by
    intro status text other same
    obtain ⟨rfl, rfl⟩ := Prod.mk.inj same
    exact .refused other
  unfold handleCreateRun at h
  cases readable : body.filter fun raw => raw.length ≤ Evidence.maxBytes + 1 with
  | none => rw [readable] at h; exact refuse (by decide) h
  | some raw =>
    obtain ⟨rfl, -⟩ := Option.filter_eq_some_iff.mp readable
    rw [readable] at h
    dsimp only at h
    split_ifs at h with large
    · exact refuse (by decide) h
    cases decoded : Evidence.decode lib enc raw with
    | error e => rw [decoded] at h; exact refuse (by decide) h
    | ok a =>
      rw [decoded] at h
      dsimp only at h
      split_ifs at h with legacy
      · exact refuse (by decide) h
      cases inserted : Memory.insert lib enc ctx { artifact := a } m with
      | mk m₁ res =>
        have inserts := Memory.inserts inserted
        simp only [Memory.store, inserted] at h
        cases res with
        | error e =>
          cases inserts
          dsimp only at h
          split_ifs at h
          · exact refuse (by decide) h
          · exact refuse (by decide) h
        | ok rec =>
          have answer : m' = m₁ ∧ resp = if garbled rec then fail statusInternalServerError "store failed"
              else { status := statusOK, body := .created (summaryFrom rec) } := by
            dsimp only at h
            split_ifs at h ⊢ <;> exact ⟨(Prod.mk.inj h).1.symm, (Prod.mk.inj h).2.symm⟩
          obtain ⟨rfl, rfl⟩ := answer
          exact .inserted decoded (not_not.mp legacy) inserts

/-- Evidence that decodes is kept, if its digest gives a new id. -/
theorem handleCreateRun_added {raw : List UInt8} {a : Artifact} {id : String}
    (decoded : Evidence.decode lib enc raw = .ok a)
    (current : a.schema = schemaV3) (digest : a.artifactDigest ≠ "")
    (normal : Runs.normalizeID (.ofList (a.artifactDigest.toList.take Runs.idLen)) = some id)
    (new : id ∉ m.byID.map Record.id) :
    handleCreateRun lib enc (some (Memory.store lib enc)) none (some raw) m =
      ({ byID := m.byID ++ [Runs.recordOf lib a id], order := m.order ++ [id] },
        if garbled (Runs.recordOf lib a id) then fail statusInternalServerError "store failed"
        else { status := statusOK, body := .created (summaryFrom (Runs.recordOf lib a id)) }) := by
  obtain ⟨⟨-, small⟩, -, checked⟩ := Evidence.decode_ok.mp decoded
  have record := Runs.fromArtifact_ok.mpr ⟨checked, digest, id, normal, rfl⟩
  have named : schemaV3 ≠ "" := by decide
  have prepared : Runs.prepareInsert lib enc { artifact := a } = .ok (Runs.recordOf lib a id) := by
    simp [Runs.prepareInsert, record, current, named]
  have inserted : Memory.insert lib enc none { artifact := a } m =
      ({ byID := m.byID ++ [Runs.recordOf lib a id], order := m.order ++ [id] }, .ok (Runs.recordOf lib a id)) := by
    have absent : Keyed.get Record.id m.byID (Runs.recordOf lib a id).id = none := Keyed.get_eq_none_iff.mpr new
    simp only [Memory.insert, prepared, absent]
    rw [Keyed.put_of_not_mem new]
    rfl
  have readable : (some raw).filter (fun raw : List UInt8 => raw.length ≤ Evidence.maxBytes + 1) = some raw := by
    simp only [Option.filter_some, decide_eq_true_eq]
    rw [if_pos (by omega)]
  simp only [handleCreateRun, readable, not_lt.mpr small, decoded, current, ne_eq, not_true_eq_false, Memory.store,
    inserted, if_false]
  split_ifs <;> rfl

/-- The kept runs can all be shown. -/
structure Legible (m : Memory) : Prop extends Memory.Rep m where
  legible : ∀ r ∈ m.byID, garbled r = false

/-- Evidence that is posted and validated has its verdict written out. -/
def Exact (lib : Lib) (enc : Encoding) : Request → Prop
  | .createRun (some raw) => ∀ a, Evidence.decode lib enc raw = .ok a → (a.decision lib).validated = true →
      a.result.overall = "match"
  | _ => True

theorem createRun_step (legible : Legible m) (exact : Exact lib enc (.createRun body))
    (creates : Creates lib enc m body m' resp) :
    Legible m' ∧ (resp.status ≠ statusOK → m' = m) := by
  cases creates with
  | refused _ => exact ⟨legible, fun _ => rfl⟩
  | @inserted raw a rec _ decoded _ inserts =>
    cases inserts with
    | known old => exact ⟨legible, fun _ => rfl⟩
    | added prepared new =>
      obtain ⟨-, -, id, normal, rfl⟩ := Runs.fromArtifact_ok.mp (Runs.prepareInsert_ok prepared)
      have shown : garbled (Runs.recordOf lib a id) = false := by
        by_contra bad
        rw [Bool.not_eq_false, garbled, Bool.and_eq_true, decide_eq_true_eq] at bad
        exact bad.2 (exact a decoded bad.1)
      refine ⟨{ order := ?_, ids := ?_, normal := ?_, legible := ?_ }, fun failed => ?_⟩
      · rw [legible.order, List.map_append]
        rfl
      · rw [List.map_append]
        exact List.nodup_append_comm.mp (List.nodup_cons.mpr ⟨new, legible.ids⟩)
      · intro r hr
        rcases List.mem_append.mp hr with hr | hr
        · exact legible.normal r hr
        · rw [List.mem_singleton.mp hr]
          exact Runs.normalizeID_idem normal
      · intro r hr
        rcases List.mem_append.mp hr with hr | hr
        · exact legible.legible r hr
        · rw [List.mem_singleton.mp hr]
          exact shown
      · rw [shown] at failed
        exact absurd rfl failed

/-! ### Requests that show runs -/

/-- A limit that `GET /v1/runs` takes: none, or a number that is not negative. -/
def ValidLimit (limit : String) : Prop := limit = "" ∨ ∃ n, atoi limit = some n ∧ 0 ≤ n

theorem handleListRuns_ok (legible : Legible m) {limit : String} (valid : ValidLimit limit) (service : List UInt8) :
    (handleListRuns (some (Memory.store lib enc)) none limit service m).status = statusOK := by
  obtain ⟨n, hn⟩ : ∃ n, (if limit = "" then some Runs.defaultList else (atoi limit).filter fun n =>
    0 ≤ n) = some n := by
    by_cases empty : limit = ""
    · exact ⟨_, if_pos empty⟩
    · obtain ⟨n, number, pos⟩ := valid.resolve_left empty
      exact ⟨n, by simp [empty, number, pos]⟩
  obtain ⟨out, listed⟩ : ∃ out, Memory.list none n (Ingest.clipService service) m = .ok out := ⟨_, rfl⟩
  have shown : out.any garbled = false := by
    refine List.any_eq_false.mpr fun r hr => ?_
    obtain ⟨r₀, hr₀, rfl⟩ := legible.listed listed r hr
    simpa [garbled] using legible.legible r₀ hr₀
  simp only [handleListRuns, hn, Memory.store, listed, shown]
  rfl

theorem handleGetRun_ok (legible : Legible m) {id : String} (stored : id ∈ m.order) :
    (handleGetRun (some (Memory.store lib enc)) none id m).status = statusOK := by
  rw [legible.order] at stored
  obtain ⟨r, hr, rfl⟩ := List.mem_map.mp stored
  simp only [handleGetRun, legible.normal r hr, Memory.store, Memory.get, Keyed.get_of_mem legible.ids hr,
    legible.legible r hr]
  rfl

/-- A `POST` that is sent again is answered as before and changes nothing. -/
theorem handleCreateRun_again :
    handleCreateRun lib enc (some (Memory.store lib enc)) ctx body
    (handleCreateRun lib enc (some (Memory.store lib enc)) ctx body m).1 =
      handleCreateRun lib enc (some (Memory.store lib enc)) ctx body m := by
  unfold handleCreateRun
  dsimp only
  cases body.filter fun raw => raw.length ≤ Evidence.maxBytes + 1 with
  | none => rfl
  | some raw =>
    by_cases large : raw.length > Evidence.maxBytes
    · simp only [if_pos large]
    simp only [if_neg large]
    cases Evidence.decode lib enc raw with
    | error e => rfl
    | ok a =>
      by_cases legacy : a.schema ≠ schemaV3
      · simp only [if_pos legacy]
      simp only [if_neg legacy, Memory.store]
      have again := @Memory.insert_again lib enc m { artifact := a } ctx
      generalize Memory.insert lib enc ctx { artifact := a } m = first at again
      obtain ⟨m', r⟩ := first
      -- Whatever the answer, the store is as `Insert` left it.
      cases r with
      | error e => simp only [apply_ite Prod.fst, ite_self, again]
      | ok rec => simp only [apply_ite Prod.fst, ite_self, again]

/-! ### Runs of the server -/

/-- The contexts of the requests are not done, so that the store never fails. -/
def Live (_ : List (Call × Response)) (call : Call) (_ : Response) : Prop := call.ctx = none

theorem legible_of_run {tr : List (Call × Response)} {s : (machine lib enc).State}
    (run : ((machine lib enc).restrict fun _ call => Exact lib enc call.request).Run Live tr s) : Legible s := by
  refine run.inv_restrict (P := fun _ s => Legible s) ⟨.empty, fun _ h => absurd h List.not_mem_nil⟩ ?_
  intro tr s call resp s' _ legible _ exact step
  obtain ⟨request, ctx⟩ := call
  cases request with
  | createRun body => exact (createRun_step legible exact (handleCreateRun_creates step)).1
  | listRuns limit service =>
    obtain ⟨rfl, -⟩ := Prod.mk.inj step
    exact legible
  | getRun id =>
    obtain ⟨rfl, -⟩ := Prod.mk.inj step
    exact legible

/-- After requests that post validated evidence only with its verdict written out, a `POST` that is not answered 200
    changes nothing, and every kept run is answered 200. -/
theorem runs_shown {tr : List (Call × Response)} {s : (machine lib enc).State}
    (run : ((machine lib enc).restrict fun _ call => Exact lib enc call.request).Run Live tr s) :
    (∀ body resp s', Exact lib enc (.createRun body) → (machine lib enc).Step s { request := .createRun body } resp s' →
        resp.status ≠ statusOK → s' = s) ∧
      (∀ limit service resp s', ValidLimit limit →
        (machine lib enc).Step s { request := .listRuns limit service } resp s' → resp.status = statusOK) ∧
      ∀ id ∈ s.order, ∀ resp s', (machine lib enc).Step s { request := .getRun id } resp s' →
        resp.status = statusOK := by
  have legible := legible_of_run run
  refine ⟨fun body resp s' exact step => ?_, fun limit service resp s' valid step => ?_,
    fun id stored resp s' step => ?_⟩
  · exact (createRun_step legible exact (handleCreateRun_creates step)).2
  · rw [← (Prod.mk.inj step).2]
    exact handleListRuns_ok legible valid service
  · rw [← (Prod.mk.inj step).2]
    exact handleGetRun_ok legible stored

end

namespace Sample
open Evidence.Sample

def post (raw : List UInt8) : Call := { request := .createRun (some raw) }

def shouted : Artifact :=
  let a := Evidence.assemble lib 0 builtInput
  { a with result := { a.result with overall := "MATCH" } }.signed lib (json .plain).marshal

def kept (a : Artifact) : Memory :=
  { byID := [Runs.recordOf lib a "0123456789abcdef"], order := ["0123456789abcdef"] }

theorem post_kept {a : Artifact} {raw : List UInt8} (decoded : Evidence.decode lib (json .plain) raw = .ok a)
    (current : a.schema = schemaV3) (digest : a.artifactDigest = "0123456789abcdef") :
    serve lib (json .plain) (some (Memory.store lib (json .plain))) {} (post raw) =
      (kept a, if garbled (Runs.recordOf lib a "0123456789abcdef") then fail statusInternalServerError "store failed"
        else { status := statusOK, body := .created (summaryFrom (Runs.recordOf lib a "0123456789abcdef")) }) := by
  have digits : "0123456789abcdef" ≠ "" := by decide
  have normal : Runs.normalizeID (.ofList (a.artifactDigest.toList.take Runs.idLen)) = some "0123456789abcdef" := by
    rw [digest]
    decide +kernel
  exact handleCreateRun_added decoded current (digest ▸ digits) normal List.not_mem_nil

end Sample

open Sample Evidence.Sample in
theorem runs_shown_sample : ∃ raw resp,
    ((machine lib (json .plain)).restrict fun _ call => Exact lib (json .plain) call.request).Run Live
    [(post raw, resp)]
        (kept (tested "FAIL")) ∧
      ∀ resp s', (machine lib (json .plain)).Step (kept (tested "FAIL"))
      { request := .getRun "0123456789abcdef" } resp s' →
        resp.status = statusOK := by
  obtain ⟨raw, accepted⟩ := marshal_tested
  have decoded := Evidence.decode_marshal accepted (Evidence.plain_artifact.mpr (by decide +kernel))
  have graded : ((tested "FAIL").decision lib).validated = false := by decide +kernel
  have exact : Exact lib (json .plain) (.createRun (some raw)) := by
    intro a same validated
    rw [decoded] at same
    cases same
    rw [graded] at validated
    cases validated
  have run : ((machine lib (json .plain)).restrict fun _ call => Exact lib (json .plain) call.request).Run Live
    [(post raw, _)]
      (kept (tested "FAIL")) := .snoc .nil rfl ⟨exact, post_kept decoded rfl rfl⟩
  exact ⟨raw, _, run, (runs_shown run).2.2 _ (List.mem_singleton_self _)⟩

open Sample Evidence.Sample in
/-- Validated evidence with its verdict in capital letters is answered 500 and kept, and then every list is answered
    500. -/
theorem runs_shown_fails : ∃ raw,
    (machine lib (json .plain)).Run Live [(post raw, fail statusInternalServerError "store failed")] (kept shouted) ∧
      kept shouted ≠ {} ∧ "0123456789abcdef" ∈ (kept shouted).order ∧
      (handleListRuns (some (Memory.store lib (json .plain))) none "" [] (kept shouted)).status =
      statusInternalServerError ∧ (handleGetRun (some (Memory.store lib (json .plain))) none "0123456789abcdef"
        (kept shouted)).status =
        statusInternalServerError := by
  have checked : Evidence.check lib (json .plain).marshal shouted = none :=
    Evidence.check_signed rfl (by decide +kernel)
  obtain ⟨raw, accepted⟩ := Evidence.marshal_of_short checked (by decide +kernel)
  have decoded := Evidence.decode_marshal accepted (Evidence.plain_artifact.mpr (by decide +kernel))
  have posted := post_kept decoded rfl rfl
  have bad : garbled (Runs.recordOf lib shouted "0123456789abcdef") = true := by decide +kernel
  rw [bad] at posted
  refine ⟨raw, .snoc .nil rfl posted, by simp [kept], List.mem_singleton_self _, ?_, ?_⟩
  · decide +kernel
  · decide +kernel

end Aquila.Api

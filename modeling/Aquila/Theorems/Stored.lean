import Aquila.Theorems.Runs

/-! Runs are stored once and read back. Both stores are a shelf: a table of records in which an insertion finds a
    record or adds one at the end. -/

namespace Aquila.Runs
open Evidence (Artifact Encoding schemaV3)

/-! ### Calls -/

inductive Call where
  | insert (ctx : Option String) (rec : Record)
  | get (ctx : Option String) (id : String)
  | list (ctx : Option String) (limit : Int) (service : List UInt8)

inductive Answer where
  | record (res : Except Err Record)
  | records (res : Except Err (List Record))

section
variable {σ : Type}

def Store.answer (st : Store σ) (s : σ) : Call → σ × Answer
  | .insert ctx rec => ((st.insert ctx rec s).1, .record (st.insert ctx rec s).2)
  | .get ctx id => (s, .record (st.get ctx id s))
  | .list ctx limit service => (s, .records (st.list ctx limit service s))

/-- A store under calls, one after the other. -/
def Store.machine (st : Store σ) (init : σ) : Machine Call Answer where
  State := σ
  init := init
  Step s call a t := st.answer s call = (t, a)

/-- What an insertion of `rec` that returned `r` promises from then on. -/
structure ReadBack (st : Store σ) (rec r : Record) (s : σ) : Prop where
  get : st.get none r.id s = .ok r
  again : ∀ rec' : Record, rec'.artifact = rec.artifact → rec'.id = "" ∨ rec'.id = r.id →
    st.insert none rec' s = (s, .ok r)
  collision : ∀ (ctx : Option String) (rec' : Record),
    normalizeID (.ofList (rec'.artifact.artifactDigest.toList.take idLen)) = some r.id →
    rec'.artifact.artifactDigest ≠ r.artifactDigest → ∃ e, st.insert ctx rec' s = (s, .error e)

end

/-! ### Prepared records -/

section
variable {lib : Lib} {enc : Encoding} {rec p : Record}

theorem prepareInsert_iff : prepareInsert lib enc rec = .ok p ↔
    rec.artifact.schema ≠ "" ∧ fromArtifact lib enc rec.artifact = .ok p ∧ (rec.id = "" ∨ rec.id = p.id) := by
  unfold prepareInsert
  by_cases missing : rec.artifact.schema = ""
  · simp [missing]
  · rw [if_neg missing]
    cases fromArtifact lib enc rec.artifact with
    | error e => simp
    | ok built =>
      dsimp only
      split_ifs with other
      · refine iff_of_false (by simp) ?_
        rintro ⟨-, same, named⟩
        cases same
        exact named.elim other.1 other.2
      · rw [not_and_or, not_not, not_not] at other
        simp only [Except.ok.injEq, ne_eq, missing, not_false_eq_true, true_and]
        exact ⟨fun same => ⟨same, same ▸ other⟩, And.left⟩

theorem prepareInsert_record (h : prepareInsert lib enc rec = .ok p) :
    ∃ id, normalizeID (.ofList (rec.artifact.artifactDigest.toList.take idLen)) = some id ∧
    p = recordOf lib rec.artifact id := by
  obtain ⟨-, -, id, normal, same⟩ := fromArtifact_ok.mp (prepareInsert_iff.mp h).2.1
  exact ⟨id, normal, same⟩

theorem normalizeID_prepared (h : prepareInsert lib enc rec = .ok p) : normalizeID p.id = some p.id := by
  obtain ⟨id, normal, rfl⟩ := prepareInsert_record h
  exact normalizeID_idem normal

theorem verify_prepared (h : prepareInsert lib enc rec = .ok p) :
    Evidence.verify lib enc.marshal p.artifact = none := by
  obtain ⟨checked, -, id, -, rfl⟩ := fromArtifact_ok.mp (prepareInsert_iff.mp h).2.1
  change Evidence.verify lib enc.marshal rec.artifact = none
  split_ifs at checked with current
  · exact (Evidence.check_eq_none.mp checked).1
  · exact checked

end

/-! ### Shelves -/

/-- A store that keeps a table of records, for the insertions that `Fits` admits. -/
structure Shelf (lib : Lib) (enc : Encoding) {σ : Type} (st : Store σ) (Fits : Record → Prop) where
  table : σ → List Record
  /-- The states that insertions lead to. -/
  Good : σ → Prop
  /-- The prepared records that the store takes. -/
  Takes : Record → Prop
  get {s : σ} {id : String} {r : Record} : Good s → normalizeID id = some id →
    Keyed.get Record.id (table s) id = some r → st.get none id s = .ok r
  refused (ctx : Option String) (s : σ) {rec : Record} {e : Err} : prepareInsert lib enc rec = .error e →
    ∃ e', st.insert ctx rec s = (s, .error e')
  known {s : σ} {rec p old : Record} : Good s → prepareInsert lib enc rec = .ok p → Takes p →
    Keyed.get Record.id (table s) p.id = some old → old.artifactDigest = p.artifactDigest →
      st.insert none rec s = (s, .ok old)
  added (ctx : Option String) {s : σ} {rec p : Record} : Good s → Fits rec → prepareInsert lib enc rec = .ok p →
    Keyed.get Record.id (table s) p.id = none → (∃ e, st.insert ctx rec s = (s, .error e)) ∨
      ∃ s', st.insert ctx rec s = (s', .ok p) ∧ Takes p ∧ Good s' ∧ table s' = table s ++ [p]
  found (ctx : Option String) {s : σ} {rec p old : Record} : Good s → prepareInsert lib enc rec = .ok p →
    Keyed.get Record.id (table s) p.id = some old → (∃ e, st.insert ctx rec s = (s, .error e)) ∨
      st.insert ctx rec s = (s, .ok old) ∧ Takes p ∧ old.artifactDigest = p.artifactDigest

namespace Shelf
variable {lib : Lib} {enc : Encoding} {σ : Type} {st : Store σ} {Fits : Record → Prop} (shelf : Shelf lib enc st Fits)
variable {s s' : σ} {rec r : Record}

/-- The same shelf under a stronger condition. -/
def mono {Fits' : Record → Prop} (imp : ∀ rec, Fits' rec → Fits rec) : Shelf lib enc st Fits' :=
  { shelf with added := fun ctx _ _ _ good fits => shelf.added ctx good (imp _ fits) }

/-- The record `r` stands on the shelf for the insertion of `rec`. -/
def Holds (rec r : Record) (s : σ) : Prop :=
  ∃ p, prepareInsert lib enc rec = .ok p ∧ shelf.Takes p ∧ Keyed.get Record.id (shelf.table s) p.id = some r ∧
    r.artifactDigest = p.artifactDigest

theorem insert_step {ctx : Option String} {res : Except Err Record} (good : shelf.Good s) (fits : Fits rec)
    (h : st.insert ctx rec s = (s', res)) :
    shelf.Good s' ∧ (∃ more, shelf.table s' = shelf.table s ++ more) ∧ ∀ r, res = .ok r → shelf.Holds rec r s' := by
  have same {e : Err} (failed : st.insert ctx rec s = (s, .error e)) :
      shelf.Good s' ∧ (∃ more, shelf.table s' = shelf.table s ++ more) ∧ ∀ r, res = .ok r → shelf.Holds rec r s' := by
    obtain ⟨rfl, rfl⟩ := Prod.mk.inj (failed.symm.trans h)
    exact ⟨good, ⟨[], (List.append_nil _).symm⟩, fun r ok => nomatch ok⟩
  cases prepared : prepareInsert lib enc rec with
  | error e =>
    obtain ⟨e', failed⟩ := shelf.refused ctx s prepared
    exact same failed
  | ok p =>
    cases found : Keyed.get Record.id (shelf.table s) p.id with
    | some old =>
      rcases shelf.found ctx good prepared found with ⟨e, failed⟩ | ⟨inserted, takes, digest⟩
      · exact same failed
      · obtain ⟨rfl, rfl⟩ := Prod.mk.inj (inserted.symm.trans h)
        refine ⟨good, ⟨[], (List.append_nil _).symm⟩, fun r ok => ?_⟩
        cases ok
        exact ⟨p, prepared, takes, found, digest⟩
    | none =>
      rcases shelf.added ctx good fits prepared found with ⟨e, failed⟩ | ⟨s₁, inserted, takes, good', table⟩
      · exact same failed
      · obtain ⟨rfl, rfl⟩ := Prod.mk.inj (inserted.symm.trans h)
        refine ⟨good', ⟨[p], table⟩, fun r ok => ?_⟩
        cases ok
        refine ⟨p, prepared, takes, ?_, rfl⟩
        rw [Keyed.get] at found ⊢
        rw [table, List.find?_append, found, Option.none_or]
        simp

theorem Holds.later (holds : shelf.Holds rec r s) {more : List Record}
    (table : shelf.table s' = shelf.table s ++ more) :
    shelf.Holds rec r s' := by
  obtain ⟨p, prepared, takes, found, digest⟩ := holds
  refine ⟨p, prepared, takes, ?_, digest⟩
  rw [Keyed.get] at found ⊢
  rw [table, List.find?_append, found, Option.some_or]

theorem Holds.readBack (good : shelf.Good s) (holds : shelf.Holds rec r s) : ReadBack st rec r s := by
  obtain ⟨p, prepared, takes, found, digest⟩ := holds
  have id : r.id = p.id := (Keyed.get_eq_some found).2
  obtain ⟨schema, built, -⟩ := prepareInsert_iff.mp prepared
  refine ⟨?_, fun rec' artifact named => ?_, fun ctx rec' normal other => ?_⟩
  · rw [id]
    exact shelf.get good (normalizeID_prepared prepared) found
  · have prepared' : prepareInsert lib enc rec' = .ok p := by
      rw [prepareInsert_iff, artifact]
      exact ⟨schema, built, id ▸ named⟩
    exact shelf.known good prepared' takes found digest
  · cases prepared' : prepareInsert lib enc rec' with
    | error e => exact shelf.refused ctx s prepared'
    | ok p' =>
      obtain ⟨id', normal', rfl⟩ := prepareInsert_record prepared'
      obtain rfl : r.id = id' := Option.some.inj (normal.symm.trans normal')
      rcases shelf.found ctx good prepared' (id.symm ▸ found) with failed | ⟨-, -, same⟩
      · exact failed
      · exact absurd same.symm other

/-- In every run from an empty shelf, each insertion that succeeded is read back. -/
theorem run_readBack {init : σ} (good : shelf.Good init) {tr : List (Call × Answer)}
    {A : List (Call × Answer) → Call → Answer → Prop}
    {s : ((st.machine init).restrict fun _ call => ∀ ctx rec, call = .insert ctx rec → Fits rec).State}
    (run : ((st.machine init).restrict fun _ call => ∀ ctx rec, call = .insert ctx rec → Fits rec).Run A tr s) :
    ∀ ctx rec r, (Call.insert ctx rec, Answer.record (.ok r)) ∈ tr → ReadBack st rec r s := by
  have inv : shelf.Good s ∧ ∀ ctx rec r, (Call.insert ctx rec, Answer.record (.ok r)) ∈ tr → shelf.Holds rec r s := by
    refine run.inv_restrict
      (P := fun tr s => shelf.Good s ∧ ∀ ctx rec r, (Call.insert ctx rec, Answer.record (.ok r)) ∈ tr →
        shelf.Holds rec r s)
      ⟨good, fun _ _ _ h => nomatch h⟩ ?_
    intro tr s call a t _ ⟨good, held⟩ _ fits step
    cases call with
    | insert ctx rec =>
      obtain ⟨state, answer⟩ := Prod.mk.inj step
      obtain ⟨good', ⟨more, table⟩, new⟩ :=
        shelf.insert_step good (fits ctx rec rfl)
          (show st.insert ctx rec s = (t, (st.insert ctx rec s).2) from Prod.ext state rfl)
      refine ⟨good', fun ctx' rec' r h => ?_⟩
      rcases List.mem_append.mp h with h | h
      · exact (held ctx' rec' r h).later shelf table
      · obtain ⟨call', answer'⟩ := Prod.mk.inj (List.mem_singleton.mp h)
        cases call'
        exact new r (Answer.record.inj (answer.trans answer'.symm))
    | get ctx id =>
      obtain ⟨rfl, rfl⟩ := Prod.mk.inj step
      refine ⟨good, fun ctx' rec' r h => ?_⟩
      rcases List.mem_append.mp h with h | h
      · exact held ctx' rec' r h
      · exact nomatch (Prod.mk.inj (List.mem_singleton.mp h)).1
    | list ctx limit service =>
      obtain ⟨rfl, rfl⟩ := Prod.mk.inj step
      refine ⟨good, fun ctx' rec' r h => ?_⟩
      rcases List.mem_append.mp h with h | h
      · exact held ctx' rec' r h
      · exact nomatch (Prod.mk.inj (List.mem_singleton.mp h)).1
  exact fun ctx rec r h => (inv.2 ctx rec r h).readBack shelf inv.1

end Shelf

/-! ### The two stores -/

section
variable {lib : Lib} {enc : Encoding}

/-- The store in memory keeps every record as it was prepared. -/
def Memory.shelf (lib : Lib) (enc : Encoding) : Shelf lib enc (Memory.store lib enc) fun _ => True where
  table := Memory.byID
  Good _ := True
  Takes _ := True
  get := by
    intro s id r _ normal found
    simp only [Memory.store, Memory.get, normal, found]
  refused := by
    intro ctx s rec e failed
    cases ctx with
    | some e' => exact ⟨_, rfl⟩
    | none => exact ⟨e, by simp only [Memory.store, Memory.insert, failed]⟩
  known := by
    intro s rec p old _ prepared _ found digest
    simp only [Memory.store, Memory.insert, prepared, found, digest, ne_eq, not_true_eq_false, if_false]
  added := by
    intro ctx s rec p _ _ prepared found
    cases ctx with
    | some e => exact .inl ⟨_, rfl⟩
    | none =>
      simp only [Memory.store, Memory.insert, prepared, found]
      exact .inr ⟨_, rfl, trivial, trivial, Keyed.put_of_not_mem (Keyed.get_eq_none_iff.mp found)⟩
  found := by
    intro ctx s rec p old _ prepared found
    cases ctx with
    | some e => exact .inl ⟨_, rfl⟩
    | none =>
      simp only [Memory.store, Memory.insert, prepared, found]
      split_ifs with other
      · exact .inl ⟨_, rfl⟩
      · exact .inr ⟨rfl, trivial, not_not.mp other⟩

/-- Evidence that a row gives back as it was: `getSQL` reads no service, and a column holds whole microseconds. -/
def Rebuilt (rec : Record) : Prop :=
  rec.artifact.service = [] ∧ timestamptz rec.artifact.recorded = rec.artifact.recorded

theorem Postgres.record_rowOf {rec p : Record} (rebuilt : Rebuilt rec) (prepared : prepareInsert lib enc rec = .ok p) :
    record lib (rowOf p) = p := by
  obtain ⟨id, -, rfl⟩ := prepareInsert_record prepared
  simp only [record, rowOf, recordOf, rebuilt.1, rebuilt.2]

theorem Postgres.get_table {rows : List Row} {id : String} :
    Keyed.get Record.id (rows.map (record lib)) id = (Keyed.get Row.id rows id).map (record lib) :=
  List.find?_map ..

theorem Postgres.mem_of_table {rows : List Row} {id : String} {rec : Record}
    (found : Keyed.get Record.id (rows.map (record lib)) id = some rec) : id ∈ rows.map Row.id := by
  by_contra absent
  simp [get_table, Keyed.get_eq_none_iff.mpr absent] at found

theorem Postgres.get_found (enc : Encoding) {s : Postgres}
    (verified : ∀ r ∈ s.rows, Evidence.verify lib enc.marshal r.artifact = none)
    {id : String} {rec : Record} (normal : normalizeID id = some id)
    (found : Keyed.get Record.id (s.rows.map (record lib)) id = some rec) : get lib enc none id s = .ok rec := by
  rw [get_table, Option.map_eq_some_iff] at found
  obtain ⟨row, found, rfl⟩ := found
  simp only [get, normal, found, verified row (Keyed.get_eq_some found).1]

/-- The store in a table keeps what its rows give back. -/
def Postgres.shelf (lib : Lib) (enc : Encoding) : Shelf lib enc (Postgres.store lib enc) Rebuilt where
  table s := s.rows.map (record lib)
  Good s := ∀ r ∈ s.rows, Evidence.verify lib enc.marshal r.artifact = none
  Takes p := (rowOf p).legal = true
  get := by
    intro s id r good normal found
    have shown := Postgres.get_found enc good normal found
    simpa only [Postgres.store] using shown
  refused := by
    intro ctx s rec e failed
    exact ⟨e, by simp only [Postgres.store, Postgres.insert, failed]⟩
  known := by
    intro s rec p old good prepared legal found digest
    have stored := Postgres.mem_of_table found
    have existing := Postgres.get_found enc good (normalizeID_prepared prepared) found
    simp only [Postgres.store, Postgres.insert, prepared, legal, stored, existing, digest, Bool.not_true,
      Bool.false_eq_true, if_false, if_true, ne_eq, not_true_eq_false]
  added := by
    intro ctx s rec p good rebuilt prepared found
    have absent : p.id ∉ s.rows.map Row.id := by
      rw [Postgres.get_table, Option.map_eq_none_iff] at found
      exact Keyed.get_eq_none_iff.mp found
    simp only [Postgres.store, Postgres.insert, prepared]
    cases ctx with
    | some e => exact .inl ⟨_, rfl⟩
    | none =>
      by_cases legal : (rowOf p).legal = true
      · simp only [legal, absent, Bool.not_true, Bool.false_eq_true, if_false]
        refine .inr ⟨_, rfl, trivial, ?_, ?_⟩
        · intro r hr
          rcases List.mem_append.mp hr with hr | hr
          · exact good r hr
          · rw [List.mem_singleton.mp hr]
            exact verify_prepared prepared
        · rw [List.map_append, List.map_singleton, Postgres.record_rowOf rebuilt prepared]
      · simp only [legal, Bool.not_false, if_true]
        exact .inl ⟨_, rfl⟩
  found := by
    intro ctx s rec p old good prepared found
    have stored := Postgres.mem_of_table found
    have existing := Postgres.get_found enc good (normalizeID_prepared prepared) found
    simp only [Postgres.store, Postgres.insert, prepared]
    cases ctx with
    | some e => exact .inl ⟨_, rfl⟩
    | none =>
      by_cases legal : (rowOf p).legal = true
      · simp only [legal, stored, existing, Bool.not_true, Bool.false_eq_true, if_false, if_true]
        split_ifs with other
        · exact .inl ⟨_, rfl⟩
        · exact .inr ⟨rfl, trivial, not_not.mp other⟩
      · simp only [legal, Bool.not_false, if_true]
        exact .inl ⟨_, rfl⟩

/-- The stores of `internal/runs`. -/
inductive Backend where
  | memory
  | postgres
deriving DecidableEq, Repr

def Backend.State : Backend → Type
  | memory => Memory
  | postgres => Postgres

def Backend.empty : (k : Backend) → k.State
  | memory => ({} : Memory)
  | postgres => ({} : Postgres)

def Backend.store (lib : Lib) (enc : Encoding) : (k : Backend) → Store k.State
  | memory => Memory.store lib enc
  | postgres => Postgres.store lib enc

/-- A store that starts empty and whose insertions satisfy `Fits`. -/
def Backend.machine (lib : Lib) (enc : Encoding) (k : Backend) (Fits : Record → Prop) : Machine Call Answer :=
  ((k.store lib enc).machine k.empty).restrict fun _ call => ∀ ctx rec, call = .insert ctx rec → Fits rec

/-- Runs are stored once and read back exactly, by the store in a table if the evidence is rebuilt from its row. -/
theorem runs_read_back (k : Backend) {tr : List (Call × Answer)}
    {s : (k.machine lib enc fun rec => k = .postgres → Rebuilt rec).State}
    (run : (k.machine lib enc fun rec => k = .postgres → Rebuilt rec).Run (fun _ _ _ => True) tr s) :
    ∀ ctx rec r, (Call.insert ctx rec, Answer.record (.ok r)) ∈ tr → ReadBack (k.store lib enc) rec r s := by
  cases k with
  | memory => exact ((Memory.shelf lib enc).mono fun _ _ => trivial).run_readBack trivial run
  | postgres =>
    exact ((Postgres.shelf lib enc).mono fun _ rebuilt => rebuilt rfl).run_readBack
      (fun _ h => absurd h List.not_mem_nil) run

end

/-! ### What a row loses -/

section
variable {lib : Lib} {enc : Encoding} {rec p : Record}

theorem Postgres.insert_empty (prepared : prepareInsert lib enc rec = .ok p) (legal : (rowOf p).legal = true) :
    (store lib enc).insert none rec {} = ({ rows := [rowOf p] }, .ok p) := by
  simp [store, insert, prepared, legal]

theorem Postgres.reread (prepared : prepareInsert lib enc rec = .ok p) (legal : (rowOf p).legal = true) :
    (store lib enc).get none p.id { rows := [rowOf p] } = .ok (record lib (rowOf p)) ∧
      (store lib enc).insert none rec { rows := [rowOf p] } = ({ rows := [rowOf p] }, .ok (record lib (rowOf p))) := by
  have good : (Postgres.shelf lib enc).Good { rows := [rowOf p] } := by
    intro r hr
    rw [List.mem_singleton.mp hr]
    exact verify_prepared prepared
  have table : Keyed.get Record.id ([rowOf p].map (record lib)) p.id = some (record lib (rowOf p)) := by
    simp [Keyed.get, record, rowOf]
  exact ⟨(Postgres.shelf lib enc).get good (normalizeID_prepared prepared) table,
    (Postgres.shelf lib enc).known good prepared legal table rfl⟩

theorem Postgres.service_lost (prepared : prepareInsert lib enc rec = .ok p) (legal : (rowOf p).legal = true)
    (service : p.service ≠ []) : ¬ReadBack (store lib enc) rec p { rows := [rowOf p] } := by
  intro back
  have same := Except.ok.inj (back.get.symm.trans (reread prepared legal).1)
  exact service (congrArg Record.service same)

end

namespace Sample
open Evidence.Sample
open Wire (json)

def serviced (service : String) : Artifact :=
  Evidence.build lib (json .plain).marshal 0 { testInput "FAIL" with service := service }

def stored (service : String) : Record := recordOf lib (serviced service) "0123456789abcdef"

theorem prepared {service : String} (digest : (serviced service).artifactDigest = "0123456789abcdef") :
    prepareInsert lib (json .plain) { artifact := serviced service } = .ok (stored service) := by
  have legal : lib.toLower (trimSpace (testInput "FAIL").result.overall) ∈
      [Replay.verdictMatch, Replay.verdictDiffer, Replay.verdictIncomplete] := by decide +kernel
  have checked : Evidence.check lib (json .plain).marshal (serviced service) = none := Evidence.check_build legal
  have named : schemaV3 ≠ "" := by decide
  refine prepareInsert_iff.mpr ⟨named, fromArtifact_ok.mpr ⟨(if_pos rfl).trans checked, ?_, _, ?_, rfl⟩, .inl rfl⟩
  · rw [digest]
    decide
  · rw [digest]
    decide +kernel

theorem run_inserted {Fits : Record → Prop} {rec p : Record} (fits : Fits rec)
    (prepared : prepareInsert lib (json .plain) rec = .ok p)
    (legal : (Postgres.rowOf p).legal = true) :
    (Backend.postgres.machine lib (json .plain) Fits).Run (fun _ _ _ => True) [(.insert none rec, .record (.ok p))]
      ({ rows := [Postgres.rowOf p] } : Postgres) := by
  refine .snoc .nil trivial ⟨fun ctx rec' same => ?_, ?_⟩
  · cases same
    exact fits
  · exact congrArg (fun a : Postgres × Except Err Record => (a.1, Answer.record a.2))
      (Postgres.insert_empty prepared legal)

end Sample

open Sample Evidence.Sample Wire in
theorem runs_read_back_sample :
    (Backend.postgres.machine lib (json .plain) fun rec => Backend.postgres = .postgres →
      Rebuilt rec).Run (fun _ _ _ => True)
        [(.insert none { artifact := serviced "" }, .record (.ok (stored "")))]
        ({ rows := [Postgres.rowOf (stored "")] } : Postgres) ∧
      ReadBack (Backend.postgres.store lib (json .plain)) { artifact := serviced "" } (stored "")
        ({ rows := [Postgres.rowOf (stored "")] } : Postgres) := by
  have digest : (serviced "").artifactDigest = "0123456789abcdef" := by decide +kernel
  have rebuilt : Rebuilt { artifact := serviced "" } := ⟨by decide +kernel, by decide +kernel⟩
  have run := @run_inserted (fun rec => Backend.postgres = .postgres → Rebuilt rec) _ _ (fun _ => rebuilt)
    (prepared digest)
    (by decide +kernel)
  exact ⟨run, runs_read_back .postgres run none _ _ (List.mem_singleton_self _)⟩

open Sample Evidence.Sample Wire in
/-- Evidence of a service: from its insertion on, the store in a table returns it without the service. -/
theorem runs_read_back_fails :
    (Backend.postgres.machine lib (json .plain) fun _ => True).Run (fun _ _ _ => True)
        [(.insert none { artifact := serviced "shop" }, .record (.ok (stored "shop")))]
        ({ rows := [Postgres.rowOf (stored "shop")] } : Postgres) ∧
      (stored "shop").service = bytes "shop" ∧ (Postgres.record lib (Postgres.rowOf (stored "shop"))).service = [] ∧
      (Postgres.store lib (json .plain)).get none (stored "shop").id { rows := [Postgres.rowOf (stored "shop")] } =
        .ok (Postgres.record lib (Postgres.rowOf (stored "shop"))) ∧
      (Postgres.store lib (json .plain)).insert none { artifact := serviced "shop" }
        { rows := [Postgres.rowOf (stored "shop")] } =
        ({ rows := [Postgres.rowOf (stored "shop")] }, .ok (Postgres.record lib (Postgres.rowOf (stored "shop")))) ∧
      ¬ReadBack (Postgres.store lib (json .plain)) { artifact := serviced "shop" } (stored "shop")
        { rows := [Postgres.rowOf (stored "shop")] } := by
  have digest : (serviced "shop").artifactDigest = "0123456789abcdef" := by decide +kernel
  have legal : (Postgres.rowOf (stored "shop")).legal = true := by decide +kernel
  have service : (stored "shop").service = bytes "shop" := by decide +kernel
  have nonempty : (stored "shop").service ≠ [] := by decide +kernel
  have again := Postgres.reread (prepared digest) legal
  exact ⟨run_inserted trivial (prepared digest) legal, service, rfl, again.1, again.2,
    Postgres.service_lost (prepared digest) legal nonempty⟩

end Aquila.Runs

import Aquila.Theorems.Jobs.Memory
import Aquila.Theorems.Jobs.Postgres
import Aquila.Theorems.Validate

/-! Both stores refine the board. What every job of a store satisfies in every state of every run, and what no
    later call changes. -/

namespace Aquila.Jobs

namespace StoreKind
variable {lib : Lib} {q : Quota} {A : Trace → Op → Resp → Prop} {tr tr' : Trace} {op : Op} {resp : Resp}

def Rep (lib : Lib) (q : Quota) : (k : StoreKind) → (k.machine lib q).State → Prop
  | memory => Memory.Rep
  | postgres => Postgres.Rep

section
variable (k : StoreKind) {s s' : (k.machine lib q).State}

theorem step_matched (rep : k.Rep lib q s) (inv : Board.Inv lib tr (k.jobs lib q s)) (fresh : FreshIDs tr op resp)
    (step : (k.machine lib q).Step s op resp s') :
    Board.Step lib q k.sees (k.jobs lib q s) op resp (k.jobs lib q s') ∧ k.Rep lib q s' := by
  cases k with
  | memory =>
    have jobs : ∀ {m : Memory}, Memory.Rep m → StoreKind.jobs lib q memory m = m.byID := fun rep => rep.jobs_eq
    rw [jobs rep] at inv ⊢
    obtain ⟨matched, rep'⟩ := Memory.step_matched rep inv fresh step
    rw [jobs rep']
    exact ⟨matched, rep'⟩
  | postgres => exact Postgres.step_matched rep inv step

theorem rep_init : k.Rep lib q (k.machine lib q).init := by
  cases k with
  | memory => exact ⟨List.nodup_nil, rfl⟩
  | postgres =>
    intro r hr
    cases hr

theorem jobs_init : k.jobs lib q (k.machine lib q).init = [] := by
  cases k <;> rfl

variable {k} (fresh : ∀ {tr op resp}, A tr op resp → FreshIDs tr op resp)
include fresh

/-- Every run of a store is a run of the board over its jobs. -/
theorem run_board (run : (k.machine lib q).Run A tr s) :
    (Board.machine lib q k.sees).Run A tr (k.jobs lib q s) ∧ k.Rep lib q s := by
  obtain ⟨js, board, rep, rfl⟩ := run.simulate (N := Board.machine lib q k.sees)
    (R := fun s js => k.Rep lib q s ∧ js = k.jobs lib q s) ⟨k.rep_init, k.jobs_init.symm⟩ (by
      rintro tr s op resp s' _ - board ⟨rep, rfl⟩ ha step
      obtain ⟨matched, rep'⟩ := k.step_matched rep (Board.inv_of_run fresh board) (fresh ha) step
      exact ⟨k.jobs lib q s', matched, rep', rfl⟩)
  exact ⟨board, rep⟩

theorem inv_of_run (run : (k.machine lib q).Run A tr s) : Board.Inv lib tr (k.jobs lib q s) :=
  Board.inv_of_run fresh (run_board fresh run).1

theorem board_step (run : (k.machine lib q).Run A tr s) (ha : A tr op resp)
    (step : (k.machine lib q).Step s op resp s') :
    Board.Step lib q k.sees (k.jobs lib q s) op resp (k.jobs lib q s') :=
  (k.step_matched (run_board fresh run).2 (inv_of_run fresh run) (fresh ha) step).1

end

theorem call_step (k : StoreKind) (s : (k.machine lib q).State) (op : Op) :
    (k.machine lib q).Step s op (k.call lib q s op).2 (k.call lib q s op).1 := by
  cases k with
  | memory => exact ⟨_, .refl _, rfl⟩
  | postgres => exact rfl

theorem play_run (k : StoreKind) {C : List Job → Op → Prop} {ops : List Op}
    (playable : Machine.Playable (k.call lib q) A (fun s op => C (k.jobs lib q s) op) [] (k.machine lib q).init ops) :
    (k.within lib q C).Run A (Machine.play (k.call lib q) (k.machine lib q).init ops).1
      (Machine.play (k.call lib q) (k.machine lib q).init ops).2 := by
  have run := Machine.Run.play (k.call_step) .nil playable
  rwa [List.nil_append] at run

theorem encoded_run (k : StoreKind) {ops : List Op}
    (playable : Machine.Playable (k.encodedCall lib q) A (fun _ _ => True) [] (k.machine lib q).init ops) :
    (k.encoded lib q).Run A (Machine.play (k.encodedCall lib q) (k.machine lib q).init ops).1
      (Machine.play (k.encodedCall lib q) (k.machine lib q).init ops).2 := by
  have run := Machine.Run.play (M := k.encoded lib q) (C := fun _ _ => True) (f := k.encodedCall lib q)
    (fun s op => ⟨_, k.call_step s op, rfl⟩) .nil playable
  rw [List.nil_append] at run
  exact run.of_restrict

theorem retains_of_later {k : StoreKind} {s s' : (k.machine lib q).State} (run : (k.machine lib q).Run FreshIDs tr s)
    (later : (k.machine lib q).Later FreshIDs tr s tr' s') : Board.Retains (k.jobs lib q s) (k.jobs lib q s') := by
  refine later.rel (R := fun s s' => Board.Retains (k.jobs lib q s) (k.jobs lib q s')) (fun _ => .refl _) .trans ?_ run
  intro tr s op resp s' run fresh step
  exact (board_step id run fresh step).retains (inv_of_run id run)

end StoreKind

/-! ### Sample calls -/

theorem Resp.exists_lease {resp : Resp} {p : Lease → Bool}
    (h : (match resp with | .lease l => p l | _ => false) = true) :
    ∃ l, resp = .lease l ∧ p l = true := by
  cases resp with
  | lease l => exact ⟨l, rfl, h⟩
  | _ => cases h

namespace Sample

def jobID : ID := ⟨"00000000000000a1", by decide, by decide⟩
def attempt : ID := ⟨"00000000000000b1", by decide, by decide⟩

def opts (steps : List Plan.Step) : CreateOpts :=
  { baseline := "http://a", patch := "http://b", workload := [{ method := "GET", path := "/" }], plan := { steps } }

def clock : CreateClock := { validate := 5000000, build := 5000000, expire := 5000000 }

def create : Op := .create (opts [{ id := "env", kind := "env" }]) jobID clock

def createBuilt : Op :=
  .create { opts [{ id := "env", kind := "env" }] with
    baselineRev := { tree := "t1", source := sourceBuilt }, patchRev :=
      { tree := "t2", source := sourceBuilt } } jobID clock

def lease : Op := .lease { id := "w" } 6000000 attempt
def commit : Op := .commit "0000000000000000" attempt.text { verdict := "prepared" } ""
def cancel : Op := .cancel jobID.text

def play (k : StoreKind) (ops : List Op) : Trace × (k.machine Lib.plain {}).State :=
  Machine.play (k.call Lib.plain {}) (k.machine Lib.plain {}).init ops

/-- The calls use fresh ids and meet a condition in every state. -/
abbrev Playable (k : StoreKind) (C : List Job → Op → Prop) (ops : List Op) : Prop :=
  Machine.Playable (k.call Lib.plain {}) FreshIDs (fun s op => C (k.jobs Lib.plain {} s) op) []
    (k.machine Lib.plain {}).init ops

theorem run (k : StoreKind) (ops : List Op) (playable : Playable k (fun _ _ => True) ops) :
    (k.machine Lib.plain {}).Run FreshIDs (play k ops).1 (play k ops).2 :=
  (k.play_run (C := fun _ _ => True) playable).of_restrict

end Sample

/-! ### Over is over -/

/-- What is over stays as it is: a task that succeeded, failed or was skipped keeps its state, result, error and
    fence, and a job that is complete, failed or canceled keeps its status. -/
theorem over_stays {lib : Lib} {q : Quota} {k : StoreKind} {tr tr' : Trace} {s s' : (k.machine lib q).State}
    (run : (k.machine lib q).Run FreshIDs tr s) (later : (k.machine lib q).Later FreshIDs tr s tr' s') {j : Job}
    (hj : j ∈ k.jobs lib q s) :
    ∃ j' ∈ k.jobs lib q s', j'.id = j.id ∧ (∀ x ∈ k.jobs lib q s', x.id = j.id → x = j') ∧
      List.Forall₂ (fun t t' : Task => t'.id = t.id ∧
        (t.state = .succeeded ∨ t.state = .failed ∨ t.state = .skipped →
          t'.state = t.state ∧ t'.result = t.result ∧ t'.err = t.err ∧ t'.fence = t.fence)) j.tasks j'.tasks ∧
      (j.status = .complete ∨ j.status = .failed ∨ j.status = .canceled → j'.status = j.status) := by
  obtain ⟨j', hj', evolves⟩ := StoreKind.retains_of_later run later j hj
  have inv' := StoreKind.inv_of_run id (run.later later)
  refine ⟨j', hj', evolves.id, fun x hx same => ?_, ?_, fun finished => ?_⟩
  · exact Keyed.eq_of_key inv'.ids hx hj' (same.trans evolves.id.symm)
  · refine evolves.tasks.imp fun t t' grows => ⟨static_id grows.static, fun finished => ?_⟩
    rw [grows.terminal (by rcases finished with h | h | h <;> simp [h, TaskState.terminal])]
    exact ⟨rfl, rfl, rfl, rfl⟩
  · refine evolves.status ?_
    rcases finished with h | h | h <;> simp [h, Job.occupies]

open Sample in
theorem complete_stays_sample :
    ∃ j ∈ StoreKind.jobs Lib.plain {} .memory (play .memory [create, lease, commit, cancel]).2, j.id = jobID.text ∧
    j.status = .complete := by
  have run := Sample.run .memory [create, lease, commit] (by decide +kernel)
  have stored : (StoreKind.jobs Lib.plain {} .memory (play .memory [create, lease, commit]).2).map
      (fun j => (j.id, j.status)) = [(jobID.text, .complete)] := by decide +kernel
  obtain ⟨j, hj, eq⟩ : ∃ j ∈ StoreKind.jobs Lib.plain {} .memory (play .memory [create, lease, commit]).2,
      (j.id, j.status) = (jobID.text, .complete) := List.mem_map.mp (stored ▸ List.mem_singleton.mpr rfl)
  obtain ⟨id, status⟩ := Prod.mk.inj eq
  obtain ⟨j', hj', id', -, -, finished⟩ := over_stays run
    (.snoc .refl (by decide +kernel : FreshIDs _ cancel _) (StoreKind.call_step .memory _ cancel)) hj
  exact ⟨j', hj', id'.trans id, (finished (.inl status)).trans status⟩

/-! ### The representation of a job -/

/-- The representation invariant of the stored jobs: status and validation follow from the tasks, nothing that
    could start is pending, exactly the leased tasks have a worker, and what describes the job is what `Create`
    was given. -/
theorem stored_job {lib : Lib} {q : Quota} {k : StoreKind} {tr : Trace} {s : (k.machine lib q).State}
    (run : (k.machine lib q).Run FreshIDs tr s) {j : Job} (hj : j ∈ k.jobs lib q s) :
    (j.status = if j.canceled then .canceled else jobStatus j.tasks) ∧
      (j.validated = (jobDecision lib j).validated ∧ j.blockers = (jobDecision lib j).blockers) ∧
      (∀ t ∈ j.tasks, t.operator = true → t.state = .skipped) ∧
      (∀ t ∈ j.tasks, t.state = .pending → depsOK t (stateByPlan j.tasks) = false) ∧
      (∀ t ∈ j.tasks, t.workerID ≠ "" ↔ t.state = .leased) ∧
      ∃ opts id clock, (Op.create opts id clock, Resp.job (buildJob lib opts id.text clock.build)) ∈ tr ∧
        j.id = id.text ∧
        j.tasks.map (fun t => (t.id, t.planID, t.kind, t.dependsOn)) =
          opts.plan.steps.zipIdx.map (fun (s, i) => (taskID id.text i, s.id, s.kind, s.dependsOn)) ∧
        j.baselineRev = { opts.baselineRev with source := sourceDeclared } ∧
        j.patchRev = { opts.patchRev with source := sourceDeclared } ∧
        j.baseline = opts.baseline ∧ j.patch = opts.patch := by
  have inv := StoreKind.inv_of_run id run
  have ok := inv.ok j hj
  refine ⟨ok.status, ⟨(congrArg Job.validated ok.graded).symm, (congrArg Job.blockers ok.graded).symm⟩,
    ok.tasks.operators, fun t ht pending => (ok.settled t ht pending).2, ok.tasks.held, ?_⟩
  obtain ⟨opts, id, clock, created, -, static⟩ := inv.created j hj
  have tasks : j.tasks.map Task.static = (planTasks id.text opts.plan.steps).map Task.static :=
    (congrArg Job.tasks static : _).trans (buildJob_descriptions lib opts id.text clock.build)
  refine ⟨opts, id, clock, created, (congrArg Job.id static :), ?_, (congrArg Job.baselineRev static :),
    (congrArg Job.patchRev static :), (congrArg Job.baseline static :), (congrArg Job.patch static :)⟩
  have described := congrArg (List.map fun t : Task => (t.id, t.planID, t.kind, t.dependsOn)) tasks
  simpa only [List.map_map, Function.comp_def, Task.static, planTasks, buildTask] using described

open Sample in
theorem stored_job_sample : ∃ j ∈ StoreKind.jobs Lib.plain {} .postgres (play .postgres [create, lease]).2,
    ∃ t ∈ j.tasks, t.workerID = "w" ∧ t.state = .leased := by
  have run := Sample.run .postgres [create, lease] (by decide +kernel)
  have stored : (StoreKind.jobs Lib.plain {} .postgres (play .postgres [create, lease]).2).map
      (fun j => j.tasks.map (·.workerID)) = [["w"]] := by decide +kernel
  obtain ⟨j, hj, tasks⟩ : ∃ j ∈ StoreKind.jobs Lib.plain {} .postgres (play .postgres [create, lease]).2,
      j.tasks.map (·.workerID) = ["w"] := List.mem_map.mp (stored ▸ List.mem_singleton.mpr rfl)
  obtain ⟨t, ht, worker⟩ : ∃ t ∈ j.tasks, t.workerID = "w" := List.mem_map.mp (tasks ▸ List.mem_singleton.mpr rfl)
  obtain ⟨-, -, -, -, held, -⟩ := stored_job run hj
  exact ⟨j, hj, t, ht, worker, (held t ht).mp (by rw [worker]; decide)⟩

/-! ### Validation -/

/-- The jobs that a call returns. -/
def Resp.returned : Resp → List Job
  | .job j => [j]
  | .jobs js => js
  | .lease l => [l.job]
  | .err _ | .ok | .task _ | .count _ => []

theorem Board.Step.returned_stored {lib : Lib} {q : Quota} {sees : Job → Bool} {tr : Trace}
    {js js' : List Job} {op : Op}
    {resp : Resp} (inv : Board.Inv lib tr js) (step : Board.Step lib q sees js op resp js') :
    ∀ j ∈ resp.returned, j ∈ js' := by
  intro j hj
  cases step with
  | got _ _ mem => exact List.mem_singleton.mp hj ▸ mem
  | listed _ _ _ sub => exact sub hj
  | created => exact List.mem_append_right _ hj
  | leased w now attempt _ _ _ leasable =>
    rw [List.mem_singleton.mp hj]
    exact Keyed.mem_update_self leasable.mem (leasable.replaces inv attempt).evolves.id.symm
  | canceled _ _ x _ hx _ =>
    rw [List.mem_singleton.mp hj]
    exact Keyed.mem_update_self hx (applyCancel_spec (inv.ok x hx)).evolves.id.symm
  | _ => cases hj

/-- Not validated, and when complete blocked by both revisions. -/
structure Unvalidated (j : Job) : Prop where
  validated : j.validated = false
  blockers : j.blockers ≠ []
  revisions : j.status = .complete → ∀ side ∈ ["baseline", "patch"],
    { code := Validate.codeUnverifiedRevision, subject := side } ∈ j.blockers

theorem JobOK.unvalidated {lib : Lib} {j : Job} (ok : JobOK lib j) (baseline : j.baselineRev.source ≠ sourceBuilt)
    (patch : j.patchRev.source ≠ sourceBuilt) : Unvalidated j := by
  have validated : j.validated = (jobDecision lib j).validated := (congrArg Job.validated ok.graded).symm
  have blockers : j.blockers = (jobDecision lib j).blockers := (congrArg Job.blockers ok.graded).symm
  by_cases unfinished : j.canceled = true ∨ j.status ≠ .complete
  · rw [jobDecision_unfinished unfinished] at validated blockers
    refine ⟨validated, by simp [blockers], fun complete => ?_⟩
    have status := ok.status
    rcases unfinished with canceled | incomplete
    · rw [canceled, if_pos rfl, complete] at status
      cases status
    · exact absurd complete incomplete
  · obtain ⟨i, decision, base, new⟩ : ∃ i : Validate.Input, jobDecision lib j = i.decide lib ∧
        i.baselineRev = j.baselineRev ∧ i.patchRev = j.patchRev := ⟨_, if_neg unfinished, rfl, rfl⟩
    rw [decision] at validated blockers
    obtain ⟨rejected, revisions⟩ := Validate.decide_unbuilt lib i (base ▸ baseline) (new ▸ patch)
    refine ⟨validated.trans rejected, fun none_ => ?_, fun _ => blockers ▸ revisions⟩
    have blocked := revisions "baseline" (by simp)
    rw [← blockers, none_] at blocked
    cases blocked

theorem Board.CreatedIn.unbuilt {lib : Lib} {tr : Trace} {j : Job} (h : Board.CreatedIn lib tr j) :
    j.baselineRev.source ≠ sourceBuilt ∧ j.patchRev.source ≠ sourceBuilt := by
  obtain ⟨opts, id, clock, -, -, static⟩ := h
  have baseline : j.baselineRev.source = sourceDeclared := (congrArg (·.baselineRev.source) static :)
  have patch : j.patchRev.source = sourceDeclared := (congrArg (·.patchRev.source) static :)
  rw [baseline, patch]
  decide

/-- No queued job is ever validated: every job that a store holds or has returned is blocked, a complete one by both
    of its revisions. -/
theorem queued_unvalidated {lib : Lib} {q : Quota} {k : StoreKind} {tr : Trace} {s : (k.machine lib q).State}
    (run : (k.machine lib q).Run FreshIDs tr s) :
    (∀ j ∈ k.jobs lib q s, Unvalidated j) ∧ ∀ e ∈ tr, ∀ j ∈ e.2.returned, Unvalidated j := by
  have stored : ∀ {tr s}, (k.machine lib q).Run FreshIDs tr s → ∀ j ∈ k.jobs lib q s, Unvalidated j := by
    intro tr s run j hj
    have inv := StoreKind.inv_of_run id run
    obtain ⟨baseline, patch⟩ := (inv.created j hj).unbuilt
    exact (inv.ok j hj).unvalidated baseline patch
  refine ⟨stored run, fun e he j hj => ?_⟩
  obtain ⟨tr₀, s₀, s₁, run₀, fresh, step⟩ := run.fired he
  have returned := (StoreKind.board_step id run₀ fresh step).returned_stored (StoreKind.inv_of_run id run₀)
  exact stored (run₀.snoc fresh step) j (returned j hj)

open Sample in
/-- The job of the sample claims built revisions, completes, and is not validated. -/
theorem queued_unvalidated_sample :
    ∃ j ∈ StoreKind.jobs Lib.plain {} .postgres (play .postgres [createBuilt, lease, commit]).2, j.status = .complete ∧
    Unvalidated j := by
  have run := Sample.run .postgres [createBuilt, lease, commit] (by decide +kernel)
  have stored : ∃ j ∈ StoreKind.jobs Lib.plain {} .postgres (play .postgres [createBuilt, lease, commit]).2,
      j.status = .complete := by decide +kernel
  obtain ⟨j, hj, complete⟩ := stored
  exact ⟨j, hj, complete, (queued_unvalidated run).1 j hj⟩

end Aquila.Jobs

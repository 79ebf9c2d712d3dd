import Aquila.Planning
import Aquila.Theorems.Jobs.Stores

/-! Progress: a job whose plan is ordered by its dependencies is over or has a task that may run. -/

namespace Aquila

/-! ### Plans -/

namespace Plan

/-- The step with the id `x` waits for the step with the id `y`. -/
def DAG.Waits (dag : DAG) (x y : String) : Prop := ∃ s ∈ dag.steps, s.id = x ∧ y ∈ s.dependsOn

/-- The ids of the steps are distinct, every dependency is a step, and no step waits for itself. -/
structure DAG.Ordered (dag : DAG) : Prop where
  ids : (dag.steps.map (·.id)).Nodup
  named : ∀ s ∈ dag.steps, ∀ d ∈ s.dependsOn, d ∈ dag.steps.map (·.id)
  acyclic : ∀ x, ¬Relation.TransGen dag.Waits x x

/-- A plan whose steps wait at most for its env step. -/
structure DAG.Flat (dag : DAG) : Prop where
  ids : (dag.steps.map (·.id)).Nodup
  env : "env" ∈ dag.steps.map (·.id)
  waits : ∀ s ∈ dag.steps, s.dependsOn = [] ∨ s.id ≠ "env" ∧ s.dependsOn = ["env"]

theorem DAG.Flat.ordered {dag : DAG} (flat : dag.Flat) : dag.Ordered := by
  refine ⟨flat.ids, fun s hs d hd => ?_, Lists.acyclic_of_rank (fun x => if x = "env" then 0 else 1) ?_⟩
  · rcases flat.waits s hs with none_ | ⟨-, env⟩
    · rw [none_] at hd; cases hd
    · rw [env, List.mem_singleton] at hd
      exact hd ▸ flat.env
  · rintro x y ⟨s, hs, rfl, hy⟩
    rcases flat.waits s hs with none_ | ⟨other, env⟩
    · rw [none_] at hy; cases hy
    · rw [env, List.mem_singleton] at hy
      simp [hy, other]

theorem fromImpact_flat {rep : Impact.Report} {dag : DAG} (h : fromImpact rep = .ok dag) :
    dag.Flat ∧ hasKind dag kindTests = false ∧ "tests" ∉ dag.steps.map (·.id) := by
  unfold fromImpact at h
  dsimp only at h
  split_ifs at h with empty runtime
  all_goals
    obtain rfl := Except.ok.inj h
    refine ⟨⟨?_, ?_, ?_⟩, ?_, ?_⟩ <;> decide

theorem planned_ordered {rep : Impact.Report} {dag : DAG} (h : fromImpact rep = .ok dag) (co : Checkout) (dir : String)
    (files : List String) : (withTests co dag dir files).Ordered := by
  obtain ⟨flat, untested, free⟩ := fromImpact_flat h
  refine DAG.Flat.ordered ?_
  have noted : ∀ {dag' : DAG}, dag'.steps = dag.steps → dag'.Flat := fun same =>
    ⟨same ▸ flat.ids, same ▸ flat.env, same ▸ flat.waits⟩
  unfold withTests
  cases co.abs dir with
  | none => exact flat
  | some root =>
    dsimp only
    split_ifs with _ _ tested
    · exact noted rfl
    · exact noted rfl
    · exact noted rfl
    · refine ⟨?_, ?_, fun s hs => ?_⟩
      · rw [List.map_append, List.nodup_append_comm]
        exact List.nodup_cons.mpr ⟨free, flat.ids⟩
      · rw [List.map_append]
        exact List.mem_append_left _ flat.env
      · rcases List.mem_append.mp hs with hs | hs
        · exact flat.waits s hs
        · exact .inl (by rw [List.mem_singleton.mp hs])

end Plan

/-! ### Jobs -/

namespace Jobs

theorem exists_waiting {t : Task} {ts : List Task} (blocked : depsOK t (stateByPlan ts) = false) :
    ∃ d ∈ t.dependsOn, (∀ u ∈ ts, u.planID ≠ d) ∨ ∃ u ∈ ts, u.planID = d ∧ u.state.done = false := by
  obtain ⟨d, hd, undone⟩ := List.all_eq_false.mp blocked
  refine ⟨d, hd, ?_⟩
  unfold stateByPlan at undone
  cases found : ts.reverse.find? (·.planID = d) with
  | none =>
    refine .inl fun u hu same => ?_
    exact List.find?_eq_none.mp found u (List.mem_reverse.mpr hu) (decide_eq_true same)
  | some u =>
    refine .inr ⟨u, List.mem_reverse.mp (List.mem_of_find?_eq_some found), by simpa using List.find?_some found, ?_⟩
    simpa [found] using undone

theorem jobStatus_pending {ts : List Task} (h : jobStatus ts = .pending) :
    (∃ t ∈ ts, t.state = .pending) ∧ ∀ t ∈ ts, t.state = .pending ∨ t.state.done = true := by
  unfold jobStatus at h
  split_ifs at h with failed live pending
  refine ⟨by simpa using pending, fun t ht => ?_⟩
  have notFailed : t.state ≠ .failed := fun hs => failed (List.any_eq_true.mpr ⟨t, ht, by simpa using hs⟩)
  have notLive : ¬(t.state = .leased ∨ t.state = .ready) :=
    fun hs => live (List.any_eq_true.mpr ⟨t, ht, by simpa using hs⟩)
  cases hs : t.state <;> simp_all [TaskState.done]

theorem jobStatus_running {ts : List Task} (h : jobStatus ts = .running) : ∃ t ∈ ts, t.state = .ready ∨
    t.state = .leased := by
  unfold jobStatus at h
  split_ifs at h with failed live
  simpa [or_comm] using live

theorem Board.CreatedIn.step {lib : Lib} {tr : Trace} {j : Job} (h : Board.CreatedIn lib tr j) {i : Nat} {t : Task}
    (hi : j.tasks[i]? = some t) : ∃ s, j.plan.steps[i]? = some s ∧ t.static = (buildTask j.id s i).static := by
  obtain ⟨opts, id, clock, -, -, static⟩ := h
  have plan : j.plan = opts.plan := (congrArg Job.plan static :)
  have jobID : j.id = id.text := (congrArg Job.id static :)
  have tasks : j.tasks.map Task.static = (planTasks id.text opts.plan.steps).map Task.static :=
    (congrArg Job.tasks static : _).trans (buildJob_descriptions lib opts id.text clock.build)
  have at_ := congrArg (fun ts : List Task => ts[i]?) tasks
  simp only [List.getElem?_map, hi, Option.map_some] at at_
  obtain ⟨u, hu, described⟩ := Option.map_eq_some_iff.mp at_.symm
  obtain ⟨s, hs, rfl⟩ := planTasks_getElem? hu
  exact ⟨s, plan ▸ hs, by rw [← described, jobID]⟩

theorem Board.CreatedIn.steps {lib : Lib} {tr : Trace} {j : Job} (h : Board.CreatedIn lib tr j) :
    j.tasks.map (fun t => (t.planID, t.dependsOn)) = j.plan.steps.map fun s => (s.id, s.dependsOn) := by
  obtain ⟨opts, id, clock, -, -, static⟩ := h
  have plan : j.plan = opts.plan := (congrArg Job.plan static :)
  have tasks : j.tasks.map Task.static = (planTasks id.text opts.plan.steps).map Task.static :=
    (congrArg Job.tasks static : _).trans (buildJob_descriptions lib opts id.text clock.build)
  have described := congrArg (List.map fun t : Task => (t.planID, t.dependsOn)) tasks
  rw [plan]
  simp only [List.map_map, Function.comp_def, Task.static, planTasks, buildTask] at described
  rw [described]
  conv_rhs => rw [← List.zipIdx_map_fst 0 opts.plan.steps, List.map_map]
  rfl

/-- A job that is not canceled and whose plan is ordered does not wait for itself. -/
theorem JobOK.status_ne_pending {lib : Lib} {tr : Trace} {j : Job} (ok : JobOK lib j)
    (created : Board.CreatedIn lib tr j)
    (ordered : j.plan.Ordered) : j.status ≠ .pending := by
  intro status
  have tasks : jobStatus j.tasks = .pending := by
    have computed := ok.status
    split_ifs at computed
    · rw [status] at computed; cases computed
    · exact computed.symm.trans status
  obtain ⟨⟨t₀, ht₀, pending₀⟩, idle⟩ := jobStatus_pending tasks
  -- among the pending tasks, one waits for no pending task
  have nonempty : (j.tasks.filter (·.state = .pending)).map (·.planID) ≠ [] := by
    simp only [ne_eq, List.map_eq_nil_iff, List.filter_eq_nil_iff, not_forall]
    exact ⟨t₀, ht₀, by simpa using pending₀⟩
  obtain ⟨x, hx, sink⟩ := Lists.exists_sink ordered.acyclic nonempty
  obtain ⟨t, ht, rfl⟩ := List.mem_map.mp hx
  obtain ⟨ht, pending⟩ := List.mem_filter.mp ht
  obtain ⟨d, hd, waiting⟩ := exists_waiting (ok.settled t ht (of_decide_eq_true pending)).2
  have step : (t.planID, t.dependsOn) ∈ j.plan.steps.map fun s => (s.id, s.dependsOn) :=
    created.steps ▸ List.mem_map_of_mem ht
  obtain ⟨s, hs, same⟩ := List.mem_map.mp step
  obtain ⟨id_, deps⟩ := Prod.mk.inj same
  rcases waiting with missing | ⟨u, hu, rfl, undone⟩
  · obtain ⟨s', hs', rfl⟩ := List.mem_map.mp (ordered.named s hs d (deps ▸ hd))
    have task : (s'.id, s'.dependsOn) ∈ j.tasks.map fun t => (t.planID, t.dependsOn) :=
      created.steps ▸ List.mem_map_of_mem hs'
    obtain ⟨u, hu, same⟩ := List.mem_map.mp task
    exact missing u hu (Prod.mk.inj same).1
  · have pending' : u.state = .pending := (idle u hu).resolve_right (by simp [undone])
    refine sink u.planID ?_ ⟨s, hs, id_, deps ▸ hd⟩
    exact List.mem_map.mpr ⟨u, List.mem_filter.mpr ⟨hu, by simpa using pending'⟩, rfl⟩

/-- No job is stuck: a stored job whose plan is ordered is over, or has a task that is ready or leased; its status is
    never pending. -/
theorem never_stuck {lib : Lib} {q : Quota} {k : StoreKind} {tr : Trace} {s : (k.machine lib q).State}
    (run : (k.machine lib q).Run FreshIDs tr s) {j : Job} (hj : j ∈ k.jobs lib q s) (ordered : j.plan.Ordered) :
    (j.status = .complete ∨ j.status = .failed ∨ j.status = .canceled ∨ ∃ t ∈ j.tasks, t.state = .ready ∨
      t.state = .leased) ∧ j.status ≠ .pending := by
  have inv := StoreKind.inv_of_run id run
  have ok := inv.ok j hj
  have unstuck := ok.status_ne_pending (inv.created j hj) ordered
  refine ⟨?_, unstuck⟩
  cases status : j.status with
  | pending => exact absurd status unstuck
  | running =>
    refine .inr (.inr (.inr ?_))
    have computed := ok.status
    rw [status] at computed
    split_ifs at computed
    exact jobStatus_running computed.symm
  | complete => exact .inl rfl
  | failed => exact .inr (.inl rfl)
  | canceled => exact .inr (.inr (.inl rfl))

namespace Sample

def report : Impact.Report := { files := ["a.go"], runtime := [{ route := "GET /" }] }

def checkout : Plan.Checkout := { abs := some, goMod := fun _ => true, goFiles := fun _ _ => true }

def planned : Plan.DAG := Plan.withTests checkout ((Plan.fromImpact report).toOption.getD {}) "/src" report.files

def createPlanned : Op := .create { opts [] with plan := planned } jobID clock

end Sample

open Sample in
theorem never_stuck_sample : ∃ j ∈ StoreKind.jobs Lib.plain {} .memory (play .memory [createPlanned, lease, commit]).2,
    j.plan.steps.length = 6 ∧ j.status ≠ .pending := by
  have run := Sample.run .memory [createPlanned, lease, commit] (by decide +kernel)
  obtain ⟨j, hj, plan, length⟩ : ∃ j ∈ StoreKind.jobs Lib.plain {} .memory
    (play .memory [createPlanned, lease, commit]).2,
      j.plan = planned ∧ j.plan.steps.length = 6 := by decide +kernel
  have fromReport : Plan.fromImpact report = .ok ((Plan.fromImpact report).toOption.getD {}) := rfl
  have ordered : j.plan.Ordered := plan ▸ Plan.planned_ordered fromReport checkout "/src" report.files
  exact ⟨j, hj, length, (never_stuck run hj ordered).2⟩

end Jobs
end Aquila

import Aquila.Theorems.Jobs.Stores

/-! Dependencies: a task is leased only when the steps it depends on are done, as long as no such step shares its id
    with a later one. -/

namespace Aquila.Jobs

/-- Where a step that a worker runs depends on an id, every step with that id but the last is an operator's. -/
def Layered (steps : List Plan.Step) : Prop :=
  ∀ s ∈ steps, s.operator = false → ∀ d ∈ s.dependsOn, steps.Pairwise fun u u' => u.id = d → u'.id = d →
    u.operator = true

instance (steps : List Plan.Step) : Decidable (Layered steps) :=
  inferInstanceAs (Decidable (∀ s ∈ steps, s.operator = false → ∀ d ∈ s.dependsOn,
    steps.Pairwise fun u u' => u.id = d → u'.id = d → u.operator = true))

/-- Every new job has a layered plan. -/
def LayeredPlans (_ : List Job) : Op → Prop
  | .create opts _ _ => Layered opts.plan.steps
  | _ => True

instance (js : List Job) : DecidablePred (LayeredPlans js)
  | .create opts _ _ => inferInstanceAs (Decidable (Layered opts.plan.steps))
  | .get _ | .list _ _ | .lease _ _ _ | .heartbeat _ _ _ _ | .commit _ _ _ _ | .requeueExpired _ | .cancel _ =>
    inferInstanceAs (Decidable True)

/-! ### One job -/

theorem stateByPlan_last {ts : List Task} {d : String} {state : TaskState} (h : stateByPlan ts d = some state) :
    ∃ before u after, ts = before ++ u :: after ∧ u.planID = d ∧ u.state = state ∧ ∀ v ∈ after, v.planID ≠ d := by
  obtain ⟨u, found, rfl⟩ := Option.map_eq_some_iff.mp h
  obtain ⟨planID, after, before, split, other⟩ := List.find?_eq_some_iff_append.mp found
  refine ⟨before.reverse, u, after.reverse, ?_, by simpa using planID, rfl, fun v hv => ?_⟩
  · rw [← List.reverse_reverse ts, split]
    simp
  · simpa using other v (List.mem_reverse.mp hv)

theorem stateByPlan_all {ts : List Task} {d : String} (operators : ∀ t ∈ ts, t.operator = true → t.state = .skipped)
    (layered : ts.Pairwise fun u u' => u.planID = d → u'.planID = d → u.operator = true)
    (done : (stateByPlan ts d).any TaskState.done = true) :
    (∃ u ∈ ts, u.planID = d) ∧ ∀ u ∈ ts, u.planID = d → u.state = .succeeded ∨ u.state = .skipped := by
  obtain ⟨state, reported, done⟩ := (Option.any_eq_true _ _).mp done
  obtain ⟨before, last, after, rfl, planID, rfl, later⟩ := stateByPlan_last reported
  refine ⟨⟨last, by simp, planID⟩, fun u hu same => ?_⟩
  rcases List.mem_append.mp hu with hu | hu
  · -- an earlier task with the id is an operator's
    have operator := (List.pairwise_append.mp layered).2.2 u hu last List.mem_cons_self same planID
    exact .inr (operators u (List.mem_append_left _ hu) operator)
  · rcases List.mem_cons.mp hu with rfl | hu
    · simpa [TaskState.done] using done
    · exact absurd same (later u hu)

theorem layered_tasks {ts : List Task} {id d : String} {steps : List Plan.Step}
    (tasks : ts.map Task.static = (planTasks id steps).map Task.static)
    (layered : steps.Pairwise fun u u' => u.id = d → u'.id = d → u.operator = true) :
    ts.Pairwise fun u u' => u.planID = d → u'.planID = d → u.operator = true := by
  have described : ts.map (fun t => (t.planID, t.operator)) = steps.map fun s => (s.id, s.operator) := by
    have same := congrArg (List.map fun t : Task => (t.planID, t.operator)) tasks
    rw [List.map_map, planTasks, List.map_map, List.map_map] at same
    have numbered : steps.map (fun s => (s.id, s.operator)) = (steps.zipIdx.map Prod.fst).map fun s =>
      (s.id, s.operator) := by
      rw [List.zipIdx_map_fst]
    rw [numbered, List.map_map]
    exact same
  have pairs : (steps.map fun s => (s.id, s.operator)).Pairwise
      fun u u' : String × Bool => u.1 = d → u'.1 = d → u.2 = true := List.pairwise_map.mpr layered
  rw [← described] at pairs
  exact List.pairwise_map.mp pairs

theorem JobOK.dependencies {lib : Lib} {j : Job} (ok : JobOK lib j) {steps : List Plan.Step}
    (tasks : j.tasks.map Task.static = (planTasks j.id steps).map Task.static) (layered : Layered steps) {t : Task}
    (ht : t ∈ j.tasks) (leased : t.state = .leased) {d : String} (hd : d ∈ t.dependsOn) :
    (∃ u ∈ j.tasks, u.planID = d) ∧ ∀ u ∈ j.tasks, u.planID = d → u.state = .succeeded ∨ u.state = .skipped := by
  have operator : t.operator = false := by
    by_contra h
    have skipped := ok.tasks.operators t ht (by simpa using h)
    rw [skipped] at leased
    cases leased
  obtain ⟨t₀, ht₀, static⟩ : ∃ t₀ ∈ planTasks j.id steps, t₀.static = t.static :=
    List.mem_map.mp (tasks ▸ List.mem_map_of_mem ht)
  obtain ⟨s, i, hs, rfl⟩ := mem_planTasks ht₀
  have deps : s.dependsOn = t.dependsOn := static_dependsOn static
  have pairs := layered s (List.mem_of_getElem? hs) ((static_operator static).trans operator) d (deps ▸ hd)
  exact stateByPlan_all ok.tasks.operators (layered_tasks tasks pairs)
    (List.all_eq_true.mp (ok.tasks.justified t ht (.inr leased)) d hd)

/-! ### Runs -/

/-- When `Lease` returns a task, each of its dependencies names a task of the job, and all tasks that it names are
    done, if the plans of all jobs are layered. -/
theorem leased_dependencies {lib : Lib} {q : Quota} {k : StoreKind} {tr : Trace}
    {s s' : (k.machine lib q).State} {op : Op}
    {l : Lease} (run : (k.within lib q LayeredPlans).Run FreshIDs tr s) (fresh : FreshIDs tr op (.lease l))
    (step : (k.machine lib q).Step s op (.lease l) s') {d : String} (hd : d ∈ l.task.dependsOn) :
    l.job ∈ k.jobs lib q s' ∧ (∃ u ∈ l.job.tasks, u.planID = d) ∧
      ∀ u ∈ l.job.tasks, u.planID = d → u.state = .succeeded ∨ u.state = .skipped := by
  have base : (k.machine lib q).Run FreshIDs tr s := run.of_restrict
  have board := StoreKind.board_step id base fresh step
  have inv := StoreKind.inv_of_run id base
  have inv' := board.inv inv fresh
  have leased := board.leased_spec inv
  obtain ⟨opts, id, clock, created, -, static⟩ := inv'.created l.job leased.stored
  -- the plan of the job was checked when it was created
  have layered : Layered opts.plan.steps := by
    rcases List.mem_append.mp created with created | new
    · obtain ⟨_, _, _, _, _, layered, _⟩ := run.fired created
      exact layered
    · simp at new
  have tasks : l.job.tasks.map Task.static = (planTasks l.job.id opts.plan.steps).map Task.static := by
    have same : l.job.id = id.text := (congrArg Job.id static :)
    rw [same]
    exact (congrArg Job.tasks static : _).trans (buildJob_descriptions lib opts id.text clock.build)
  exact ⟨leased.stored, (inv'.ok l.job leased.stored).dependencies tasks layered leased.task leased.state hd⟩

namespace Sample

def chain : List Plan.Step := [{ id := "a", kind := "env" }, { id := "b", kind := "behavior", dependsOn := ["a"] }]

def chained : List Op := [.create (opts chain) jobID clock, lease, commit]

def repeated : List Plan.Step :=
  [{ id := "a", kind := "env" }, { id := "a", kind := "tests", operator := true },
    { id := "b", kind := "behavior", dependsOn := ["a"] }]

def repeating : List Op := [.create (opts repeated) jobID clock, lease]

def secondAttempt : ID := ⟨"00000000000000b2", by decide, by decide⟩

def leaseAgain : Op := .lease { id := "w", slots := 2 } 7000000 secondAttempt

end Sample

open Sample in
theorem leased_dependencies_sample :
    ∃ l s', (StoreKind.memory.machine Lib.plain {}).Step (play .memory chained).2 leaseAgain
      (.lease l) s' ∧ "a" ∈ l.task.dependsOn ∧ l.job ∈ StoreKind.jobs Lib.plain {} .memory s' ∧
      (∃ u ∈ l.job.tasks, u.planID = "a") ∧
      ∀ u ∈ l.job.tasks, u.planID = "a" → u.state = .succeeded ∨ u.state = .skipped := by
  have run := StoreKind.memory.play_run (C := LayeredPlans) (by decide +kernel : Playable .memory LayeredPlans chained)
  have step := StoreKind.memory.call_step (play .memory chained).2 leaseAgain
  have fresh : FreshIDs (play .memory chained).1 leaseAgain
      (StoreKind.memory.call Lib.plain {} (play .memory chained).2 leaseAgain).2 := by decide +kernel
  obtain ⟨l, returned, deps⟩ : ∃ l, (StoreKind.memory.call Lib.plain {} (play .memory chained).2 leaseAgain).2 =
    .lease l ∧
      decide ("a" ∈ l.task.dependsOn) = true := Resp.exists_lease (by decide +kernel)
  rw [returned] at step fresh
  have mem : "a" ∈ l.task.dependsOn := of_decide_eq_true deps
  exact ⟨l, _, step, mem, leased_dependencies run fresh step mem⟩

open Sample in
theorem leased_early (k : StoreKind) :
    ∃ l s', (k.machine Lib.plain {}).Step (play k repeating).2 leaseAgain (.lease l) s' ∧
    FreshIDs (play k repeating).1 leaseAgain (.lease l) ∧
      ∃ d ∈ l.task.dependsOn, ∃ u ∈ l.job.tasks, u.planID = d ∧ ¬(u.state = .succeeded ∨ u.state = .skipped) := by
  have step := k.call_step (play k repeating).2 leaseAgain
  have fresh : FreshIDs (play k repeating).1 leaseAgain (k.call Lib.plain {} (play k repeating).2 leaseAgain).2 := by
    cases k <;> decide +kernel
  obtain ⟨l, returned, early⟩ : ∃ l, (k.call Lib.plain {} (play k repeating).2 leaseAgain).2 = .lease l ∧
      decide (∃ d ∈ l.task.dependsOn, ∃ u ∈ l.job.tasks, u.planID = d ∧ ¬(u.state = .succeeded ∨ u.state = .skipped)) =
        true := Resp.exists_lease (by cases k <;> decide +kernel)
  rw [returned] at step fresh
  exact ⟨l, _, step, fresh, of_decide_eq_true early⟩

open Sample in
/-- In both stores, a repeated plan id lets a task start before what it depends on is done. -/
theorem leased_dependencies_fail :
    ((StoreKind.memory.machine Lib.plain {}).Run FreshIDs (play .memory repeating).1 (play .memory repeating).2 ∧
      ∃ l s', (StoreKind.memory.machine Lib.plain {}).Step (play .memory repeating).2 leaseAgain (.lease l) s' ∧
        FreshIDs (play .memory repeating).1 leaseAgain (.lease l) ∧
        ∃ d ∈ l.task.dependsOn, ∃ u ∈ l.job.tasks, u.planID = d ∧ ¬(u.state = .succeeded ∨ u.state = .skipped)) ∧
    ((StoreKind.postgres.machine Lib.plain {}).Run FreshIDs (play .postgres repeating).1 (play .postgres repeating).2 ∧
      ∃ l s', (StoreKind.postgres.machine Lib.plain {}).Step (play .postgres repeating).2 leaseAgain (.lease l) s' ∧
        FreshIDs (play .postgres repeating).1 leaseAgain (.lease l) ∧
        ∃ d ∈ l.task.dependsOn, ∃ u ∈ l.job.tasks, u.planID = d ∧ ¬(u.state = .succeeded ∨ u.state = .skipped)) :=
  ⟨⟨Sample.run .memory repeating (by decide +kernel), leased_early .memory⟩,
    ⟨Sample.run .postgres repeating (by decide +kernel), leased_early .postgres⟩⟩

end Aquila.Jobs

import Aquila.Theorems.Jobs.Progress
import Aquila.Theorems.Steady
import Aquila.Worker

/-! Whether a worker and the command line grade a step alike, in an environment that always answers alike. -/

namespace Aquila.Jobs

theorem validateCreate_workload {lib : Lib} {now : Time} {opts : CreateOpts} (h : validateCreate lib now opts = none) :
    opts.workload ≠ [] := by
  unfold validateCreate at h
  rw [Option.or_eq_none_iff, Option.or_eq_none_iff] at h
  have checked := h.2.2
  intro empty
  unfold checkOpts at checked
  simp only [if_pos empty] at checked
  split_ifs at checked
  all_goals split at checked <;> cases checked

theorem Board.CreatedIn.workload {lib : Lib} {tr : Trace} {j : Job} (h : Board.CreatedIn lib tr j) :
    replayWorkload j.workload ≠ [] := by
  obtain ⟨opts, id, clock, -, valid, static⟩ := h
  have workload : j.workload = workloadOf opts.workload := (congrArg Job.workload static :)
  rw [workload, replayWorkload, workloadOf]
  simpa using validateCreate_workload valid

end Aquila.Jobs

namespace Aquila.Worker
open Jobs (Lease Trace StoreKind FreshIDs replayWorkload)
open Plan (Env Side kindTests kindFaultStatus injectedStatus)

/-! ### The plan of a lease -/

section
variable {lib : Lib} {env : Env} {l : Lease} {url : Side → String}

/-- The step of the plan of a lease. -/
def leaseStep (l : Lease) : Plan.Step :=
  { id := l.task.planID, kind := l.task.kind, required := true, n := if l.n < 1 then 1 else l.n }

variable (healthy : env.Healthy lib l.job.baseline l.job.patch l.job.plan.healthPath)
  (parsed : ∀ side, Replay.parseTarget lib (Plan.sides l.job.baseline l.job.patch side) = .ok (url side))
  (nonempty : replayWorkload l.job.workload ≠ []) (work : l.task.operator = false)
include healthy parsed nonempty work

theorem executeWith_within (within : (leaseDAG l).WithinLimits) :
    (executeWith lib (env.world lib (leaseDAG l)) none l).toOption.map (·.verdict) =
      some (env.grade lib (leaseDAG l) l.job.baseline l.job.patch url (replayWorkload l.job.workload)
        (leaseStep l)) := by
  have executed : Plan.execute lib (env.world lib (leaseDAG l)) (leaseDAG l) l.job.baseline l.job.patch
    (replayWorkload l.job.workload) =
      .ok (Plan.evidence lib (leaseDAG l) (env.data lib (leaseDAG l) l.job.baseline l.job.patch url
        (replayWorkload l.job.workload))) :=
    Plan.execute_within (Plan.sides l.job.baseline l.job.patch) healthy parsed nonempty within
  have graded : (Plan.evalStep lib (leaseStep l)
      (env.data lib (leaseDAG l) l.job.baseline l.job.patch url (replayWorkload l.job.workload))).verdict =
        env.grade lib (leaseDAG l) l.job.baseline l.job.patch url (replayWorkload l.job.workload) (leaseStep l) :=
    Plan.evalStep_grade (Plan.Env.Healthy.probeEnv (leaseDAG l) healthy) (List.nodup_singleton _) (i := 0) rfl rfl
  have other : ¬(env.grade lib (leaseDAG l) l.job.baseline l.job.patch url (replayWorkload l.job.workload)
    (leaseStep l) = "pass" ∨
      env.grade lib (leaseDAG l) l.job.baseline l.job.patch url (replayWorkload l.job.workload) (leaseStep l) =
        "validated") :=
    Plan.grade_ne_pass (leaseStep l)
  simp only [executeWith, work, Bool.false_eq_true, if_false, executed]
  rw [← graded] at other ⊢
  exact congrArg (fun r : Except String Plan.StepResult => r.toOption.map (·.verdict)) (if_neg other)

theorem executeWith_beyond (beyond : ¬(leaseDAG l).WithinLimits) :
    (executeWith lib (env.world lib (leaseDAG l)) none l).toOption.map (·.verdict) = none := by
  obtain ⟨e, executed⟩ : ∃ e, Plan.execute lib (env.world lib (leaseDAG l)) (leaseDAG l) l.job.baseline l.job.patch
      (replayWorkload l.job.workload) = .error e :=
    Plan.execute_beyond (Plan.sides l.job.baseline l.job.patch) healthy parsed nonempty beyond
  simp only [executeWith, work, Bool.false_eq_true, if_false, executed]
  rfl

end

/-! ### Agreement -/

/-- The worker returns for a lease the verdict that the whole plan gives its step, or both fail. -/
def Agrees (lib : Lib) (env : Env) (l : Lease) : Prop :=
  (executeWith lib (env.world lib (leaseDAG l)) none l).toOption.map (·.verdict) =
    Plan.verdictOf l.task.planID
      (Plan.execute lib (env.world lib l.job.plan) l.job.plan l.job.baseline l.job.patch
        (replayWorkload l.job.workload))

/-- The plan of a lease keeps what its step needs: it and the whole plan replay within the limits or neither does,
    and where they do, there are no tests to run for a tests step, and a fault step injects the default status or one
    that no healthy baseline tells from it. -/
structure Portable (lib : Lib) (l : Lease) : Prop where
  limits : l.job.plan.WithinLimits ↔ (leaseDAG l).WithinLimits
  tests : l.job.plan.WithinLimits → l.task.kind = kindTests → ¬Plan.RunsTests l.job.plan
  fault : l.job.plan.WithinLimits → l.task.kind = kindFaultStatus →
    ∀ s ∈ l.job.plan.steps, s.id = l.task.planID →
      s.status < 1 ∨ s.status = 502 ∨ Plan.Untold lib l.job.plan.healthPath (replayWorkload l.job.workload) s.status

section
variable {lib : Lib} {env : Env} {l : Lease} {url : Side → String} {i : Nat} {s : Plan.Step}

theorem agrees_iff (healthy : env.Healthy lib l.job.baseline l.job.patch l.job.plan.healthPath)
    (parsed : ∀ side, Replay.parseTarget lib (Plan.sides l.job.baseline l.job.patch side) = .ok (url side))
    (nonempty : replayWorkload l.job.workload ≠ []) (distinct : (l.job.plan.steps.map Plan.Step.id).Nodup)
    (hi : l.job.plan.steps[i]? = some s) (id : l.task.planID = s.id) (work : l.task.operator = false)
    (operator : s.operator = false) :
    Agrees lib env l ↔ (l.job.plan.WithinLimits ↔ (leaseDAG l).WithinLimits) ∧ (l.job.plan.WithinLimits →
      env.grade lib (leaseDAG l) l.job.baseline l.job.patch url (replayWorkload l.job.workload) (leaseStep l) =
        env.grade lib l.job.plan l.job.baseline l.job.patch url (replayWorkload l.job.workload) s) := by
  unfold Agrees
  rw [id]
  by_cases within : l.job.plan.WithinLimits
  · rw [Plan.verdictOf_within healthy parsed nonempty within distinct hi operator]
    by_cases leased : (leaseDAG l).WithinLimits
    · rw [executeWith_within healthy parsed nonempty work leased]
      simp [within, leased]
    · rw [executeWith_beyond healthy parsed nonempty work leased]
      simp [within, leased]
  · rw [Plan.verdictOf_beyond healthy parsed nonempty within]
    by_cases leased : (leaseDAG l).WithinLimits
    · rw [executeWith_within healthy parsed nonempty work leased]
      simp [within, leased]
    · rw [executeWith_beyond healthy parsed nonempty work leased]
      simp [within, leased]

theorem leaseDAG_idle (l : Lease) : ¬Plan.RunsTests (leaseDAG l) :=
  fun runs => runs.2.1 (.inl (show trimSpace "" = "" by decide))

theorem injectedStatus_leaseStep (l : Lease) : injectedStatus (leaseStep l) = 502 := rfl

theorem runTests_leaseDAG (goTest : String → List String → Plan.TestRun) (isTests : l.task.kind = kindTests) :
    (Plan.runTests goTest (leaseDAG l)).verdict = Replay.verdictIncomplete :=
  Plan.runTests_idle goTest (List.mem_singleton.mpr rfl) (s := leaseStep l) isTests rfl (leaseDAG_idle l)

end

/-- A worker and the command line agree on the step of a lease, in every environment that always answers alike and
    in which the gateways are healthy, exactly if the lease is portable. -/
theorem executeWith_agrees_iff {lib : Lib} {q : Jobs.Quota} {k : StoreKind} {tr : Trace} {st : (k.machine lib q).State}
    (run : (k.machine lib q).Run FreshIDs tr st) (l : Lease) (stored : l.job ∈ k.jobs lib q st)
    (task : l.task ∈ l.job.tasks)
    (work : l.task.operator = false) (distinct : (l.job.plan.steps.map Plan.Step.id).Nodup)
    (usual : ∃ env : Env, env.Healthy lib l.job.baseline l.job.patch l.job.plan.healthPath ∧
      env.Listens lib l.job.baseline) :
    (∀ env : Env, env.Healthy lib l.job.baseline l.job.patch l.job.plan.healthPath → Agrees lib env l) ↔
    Portable lib l := by
  have created := (StoreKind.inv_of_run id run).created l.job stored
  have nonempty := created.workload
  obtain ⟨i, hi⟩ := List.mem_iff_getElem?.mp task
  obtain ⟨s, hs, static⟩ := created.step hi
  have mem := List.mem_of_getElem? hs
  obtain ⟨-, -, planID, kind, operator, -⟩ := Jobs.static_eq static
  have planID : l.task.planID = s.id := planID
  have kind : l.task.kind = s.kind := kind
  have idle : s.operator = false := operator.symm.trans work
  obtain ⟨env, healthy, listens⟩ := usual
  obtain ⟨url, parsed⟩ := healthy.parsed
  have iff : ∀ env : Env, env.Healthy lib l.job.baseline l.job.patch l.job.plan.healthPath → (Agrees lib env l ↔ _) :=
    fun env healthy => agrees_iff healthy parsed nonempty distinct hs planID work idle
  constructor
  · intro agree
    refine ⟨((iff env healthy).mp (agree env healthy)).1, fun within isTests runs => ?_,
      fun within isFault u hu same => ?_⟩
    · let passing : Env := { env with goTest := fun _ _ => .passed }
      have same := ((iff passing healthy).mp (agree passing healthy)).2 within
      rw [Plan.grade_tests isTests, Plan.grade_tests (kind.symm.trans isTests), runTests_leaseDAG _ isTests,
        Plan.runTests_passed runs] at same
      exact absurd same (by decide)
    · obtain rfl : u = s := Keyed.eq_of_key distinct hu mem (same.trans planID)
      by_contra other
      obtain ⟨pos, other, told⟩ : ¬u.status < 1 ∧ u.status ≠ 502 ∧
        ¬Plan.Untold lib _ _ u.status := by simpa only [not_or] using other
      have status : injectedStatus u = u.status := if_neg pos
      obtain ⟨env', healthy', differ⟩ := Plan.exists_told_apart parsed healthy listens (not_lt.mp pos) other told
      have same := ((iff env' healthy').mp (agree env' healthy')).2 within
      rw [Plan.grade_fault isFault, Plan.grade_fault (kind.symm.trans isFault), injectedStatus_leaseStep,
        status] at same
      exact differ same
  · intro portable env healthy
    refine (iff env healthy).mpr ⟨portable.limits, fun within => Plan.grade_congr kind (fun isTests => ?_)
      fun isFault => ?_⟩
    · rw [runTests_leaseDAG _ (kind.trans isTests),
        Plan.runTests_idle _ mem isTests idle (portable.tests within (kind.trans isTests))]
    · rw [injectedStatus_leaseStep, injectedStatus]
      rcases portable.fault within (kind.trans isFault) s mem planID.symm with unset | default | untold
      · rw [if_pos unset]
      · rw [default, if_neg (by decide)]
      · split_ifs with unset
        · rfl
        · exact Plan.fault_untold parsed healthy (not_lt.mp unset) untold

namespace Sample
open Jobs.Sample (jobID clock opts play)

def created (plan : Plan.DAG) : List Jobs.Op := [.create { opts [] with plan } jobID clock]

def job (plan : Plan.DAG) : Jobs.Job :=
  (StoreKind.memory.jobs Lib.plain {} (play .memory (created plan)).2).headD default

def lease (plan : Plan.DAG) (i : Nat) : Lease :=
  let task := ((job plan).tasks[i]?).getD { id := "", jobID := "", planID := "", kind := "" }
  { job := job plan, task, n := task.n, fence := 1, attempt := "" }

def env : Env where
  answer _ _ := .response 200 (.ok []) 1
  goTest _ _ := .passed
  listen := .ok "127.0.0.1:7"

def plan : Plan.DAG :=
  { steps := [{ id := "env", kind := "env" }, { id := "behavior", kind := "behavior" },
    { id := "latency", kind := "latency", n := 3 },
      { id := "concurrency", kind := "concurrency" }, { id := "fault", kind := "fault_status" }] }

def tested : Plan.DAG := { steps := [{ id := "tests", kind := "tests" }], module := "/src", testPackages := ["."] }

end Sample

open Jobs.Sample (play) in
open Sample in
theorem executeWith_agrees_iff_sample :
    env.Healthy Lib.plain "http://a" "http://b" "" ∧ (lease plan 3).task.kind = "concurrency" ∧
      ∀ env : Env, env.Healthy Lib.plain "http://a" "http://b" "" → Agrees Lib.plain env (lease plan 3) := by
  have run := Jobs.Sample.run .memory (created plan) (by decide +kernel)
  have healthy : env.Healthy Lib.plain "http://a" "http://b" "" := by decide +kernel
  have listens : env.Listens Lib.plain "http://a" :=
    ⟨"127.0.0.1:7", "http://127.0.0.1:7", "http://a", rfl, by decide +kernel, by decide +kernel, by decide⟩
  have portable : Portable Lib.plain (lease plan 3) :=
    ⟨by decide +kernel, fun _ isTests => absurd isTests (by decide +kernel),
      fun _ isFault => absurd isFault (by decide +kernel)⟩
  refine ⟨healthy, by decide +kernel, ?_⟩
  exact (executeWith_agrees_iff run (lease plan 3) (by decide +kernel) (by decide +kernel) (by decide +kernel)
    (by decide +kernel)
    ⟨env, healthy, listens⟩).mpr portable

open Jobs.Sample (play) in
open Sample in
/-- The tests pass, but the worker has none to run. -/
theorem executeWith_tests :
    (StoreKind.memory.machine Lib.plain {}).Run FreshIDs (play .memory (created tested)).1
    (play .memory (created tested)).2 ∧ (lease tested 0).job ∈ StoreKind.memory.jobs Lib.plain {}
    (play .memory (created tested)).2 ∧ (lease tested 0).task ∈ (lease tested 0).job.tasks ∧
    (lease tested 0).task.operator = false ∧ (tested.steps.map Plan.Step.id).Nodup ∧
    env.Healthy Lib.plain "http://a" "http://b" "" ∧
    (executeWith Lib.plain (env.world Lib.plain (leaseDAG (lease tested 0))) none
      (lease tested 0)).toOption.map (·.verdict) =
      some Replay.verdictIncomplete ∧
    Plan.verdictOf (lease tested 0).task.planID (Plan.execute Lib.plain (env.world Lib.plain (lease tested 0).job.plan)
      (lease tested 0).job.plan
      (lease tested 0).job.baseline (lease tested 0).job.patch (replayWorkload (lease tested 0).job.workload)) =
      some Plan.verdictPrepared := by
  refine ⟨Jobs.Sample.run .memory (created tested) (by decide +kernel), ?_⟩
  decide +kernel

end Aquila.Worker

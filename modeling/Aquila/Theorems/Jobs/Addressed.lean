import Aquila.Theorems.Jobs.Fencing
import Aquila.Theorems.Jobs.Progress
import Aquila.Theorems.Jobs.Submission

/-! Whether a worker can name the task it leased: the calls after a lease find its task under its id. -/

namespace Aquila.Jobs
variable {w : Worker} {now : Time} {attempt : ID} {n : Nat}

/-! ### The only task with an id -/

namespace Board
variable {lib : Lib} {q : Quota} {sees : Job → Bool} {tr : Trace} {js js' : List Job} {j : Job} {i : Nat} {t : Task}
  {tid : String}

/-- A heartbeat or commit that names an id can find no other task. -/
structure Only (sees : Job → Bool) (js : List Job) (tid : String) (j : Job) (i : Nat) (t : Task) : Prop extends
    Found sees js tid j i t where
  unique : ∀ {j' i' t'}, Found sees js tid j' i' t' → j' = j ∧ i' = i ∧ t' = t

theorem Only.findTask (only : Only sees js tid j i t) {walk : List Job}
    (walked : ∀ {x}, x ∈ walk ↔ x ∈ js ∧ sees x = true) :
    findTask walk tid = some (j, i, t) := by
  cases found : Jobs.findTask walk tid with
  | none =>
    have absent := findTask_eq_none_iff.mp found j (walked.mpr ⟨only.mem, only.seen⟩) t (List.mem_of_getElem? only.task)
    exact absurd only.id absent
  | some jit =>
    obtain ⟨j', i', t'⟩ := jit
    obtain ⟨rfl, rfl, rfl⟩ := only.unique (.of_findTask found fun hx => walked.mp hx)
    rfl

theorem Apart.only (apart : Apart js) (inv : Inv lib tr js) (found : Found sees js tid j i t) :
    Only sees js tid j i t := by
  refine ⟨found, fun other => ?_⟩
  obtain ⟨rfl, rfl, rfl⟩ := apart.place_eq inv other.mem found.mem other.task found.task (other.id.trans found.id.symm)
  exact ⟨rfl, rfl, rfl⟩

theorem Step.leased_place (inv : Inv lib tr js) {l : Lease}
    (kept : ∀ {j i t}, Leasable q sees (expire lib sees now js) w j i t →
      sees (leaseJob lib j i t w now attempt) = true)
    (step : Step lib q sees js (.lease w now attempt) (.lease l) js') :
    (∃ i, Found sees js' l.task.id l.job i l.task) ∧ l.task.state = .leased ∧ l.task.attemptID = attempt.text ∧
      l.attempt = attempt.text ∧ l.task.workerID = w.id := by
  cases step with
  | leased _ _ _ j i t leasable =>
    have spec := leasable.replaces inv attempt
    have task := leasable.leaseOf_task inv attempt
    have stored := Keyed.mem_update_self leasable.mem spec.evolves.id.symm
    refine ⟨⟨i, stored, kept leasable, ?_, rfl⟩, ?_, ?_, rfl, ?_⟩
    all_goals rw [task]
    · exact spec.task
    · rfl
    · rfl
    · rfl

end Board

/-! ### Calls that find their task -/

namespace StoreKind
variable {lib : Lib} {q : Quota} {k : StoreKind} {tr : Trace} {s s' : (k.machine lib q).State} {j : Job}
  {i : Nat} {t t' : Task}
  {taskID attemptID tid aid : String}

theorem sees_leaseJob (k : StoreKind) {js : List Job} (ok : ∀ j ∈ js, JobOK lib j)
    (leasable : Board.Leasable q k.sees js w j i t) : k.sees (Board.leaseJob lib j i t w now attempt) = true := by
  cases k with
  | memory => rfl
  | postgres =>
    have ok' := ok j leasable.mem
    have status := jobStatus_leased ok' leasable.task leasable.ready w now attempt leasable.canceled
    have same : (Board.leaseJob lib j i t w now attempt).occupies = j.occupies := by
      rw [leaseJob_eq ok' leasable.task leasable.ready w now attempt leasable.canceled]
      simp only [Job.occupies, Job.restated, Job.setTask, status]
    exact same.trans leasable.seen

theorem mem_walk {m : Memory} (rep : Memory.Rep m) {walk : List Job} (perm : walk.Perm m.byID) {x : Job} :
    x ∈ walk ↔ x ∈ m.jobs ∧ memory.sees x = true := by
  rw [perm.mem_iff, rep.jobs_eq]
  exact (and_iff_left rfl).symm

theorem heartbeat_answers (run : (k.machine lib q).Run FreshIDs tr s)
    (only : Board.Only k.sees (k.jobs lib q s) tid j i t)
    (ids : normalizeIDs taskID attemptID = .ok (tid, aid)) {workerID : String}
    (renew : applyHeartbeat t aid workerID now = .ok t') :
    (k.machine lib q).Answers s (.heartbeat taskID attemptID workerID now) .ok
      fun s' => k.jobs lib q s' = Keyed.update Job.id (k.jobs lib q s) (j.setTask i t') := by
  have rep := (run_board id run).2
  have inv := inv_of_run id run
  refine .of_total ⟨_, _, k.call_step s _⟩ fun {resp s'} step => ?_
  have board := board_step id run (by simp [FreshIDs, drawn]) step
  have accepted : resp = .ok := by
    cases k with
    | memory =>
      obtain ⟨walk, perm, called⟩ := step
      simp only [Memory.call, Memory.heartbeat, ids, only.findTask (mem_walk rep perm), renew] at called
      exact (congrArg Prod.snd called).symm
    | postgres =>
      simp only [machine, Postgres.machine, Postgres.call, Postgres.heartbeat, ids,
        only.findTask (Postgres.mem_lockJobs rep inv), renew] at step
      exact (congrArg Prod.snd step).symm
  subst accepted
  refine ⟨rfl, ?_⟩
  generalize k.jobs lib q s' = js' at board ⊢
  cases board with
  | renewed _ _ _ _ tid' aid' j' i' u u' ids' found' renew' =>
    obtain ⟨rfl, rfl⟩ : tid = tid' ∧ aid = aid' := by simpa [ids] using ids'
    obtain ⟨rfl, rfl, rfl⟩ := only.unique found'
    rw [Except.ok.inj (renew.symm.trans renew')]

theorem commit_answers (run : (k.machine lib q).Run FreshIDs tr s) (only : Board.Only k.sees (k.jobs lib q s) tid j i t)
    (ids : normalizeIDs taskID attemptID = .ok (tid, aid)) {result : Plan.StepResult} {fail : String}
    (commit : applyCommit t aid result fail = .ok t') :
    (k.machine lib q).Answers s (.commit taskID attemptID result fail) (.task t')
      fun s' => k.jobs lib q s' = Keyed.update Job.id (k.jobs lib q s) (refreshJob lib (j.setTask i t')) := by
  have rep := (run_board id run).2
  have inv := inv_of_run id run
  have task := (commit_spec (inv.ok j only.mem) only.task commit).task
  refine .of_total ⟨_, _, k.call_step s _⟩ fun {resp s'} step => ?_
  have board := board_step id run (by simp [FreshIDs, drawn]) step
  have accepted : resp = .task t' := by
    cases k with
    | memory =>
      obtain ⟨walk, perm, called⟩ := step
      simp only [Memory.call, Memory.commit, ids, only.findTask (mem_walk rep perm), commit, task,
        Option.getD_some] at called
      exact (congrArg Prod.snd called).symm
    | postgres =>
      simp only [machine, Postgres.machine, Postgres.call, Postgres.commit, ids,
        only.findTask (Postgres.mem_lockJobs rep inv), commit, task, Option.getD_some] at step
      exact (congrArg Prod.snd step).symm
  subst accepted
  refine ⟨rfl, ?_⟩
  generalize k.jobs lib q s' = js' at board ⊢
  generalize touched : Resp.task t' = resp at board
  cases board with
  | committed _ _ _ _ tid' aid' j' i' u u' ids' found' commit' =>
    obtain ⟨rfl, rfl⟩ : tid = tid' ∧ aid = aid' := by simpa [ids] using ids'
    obtain ⟨rfl, rfl, rfl⟩ := only.unique found'
    rw [Except.ok.inj (commit.symm.trans commit')]
  | refused => cases touched
  | expiredOnly => cases touched

end StoreKind

/-! ### What the calls change -/

/-- The task after a commit that was accepted. -/
def Task.committed (t : Task) (result : Plan.StepResult) (fail : String) : Task :=
  { t with state := if fail = "" then .succeeded else .failed, err := fail, result, workerID := "", leaseUntil := 0 }

/-- The tasks of a job before and after one of them becomes `t'`: those become ready that waited for it, and no
    other changes. -/
def Unblocks (t' : Task) (before after : List Task) : Prop :=
  List.Forall₂ (fun u u' => u' =
    if u.id = t'.id then t'
    else if u.state = .pending ∧ depsOK u (stateByPlan before) = false ∧ depsOK u (stateByPlan after) = true then
      { u with state := .ready }
    else u) before after

section
variable {lib : Lib} {j : Job} {i : Nat} {t t' : Task}

theorem applyCommit_of_leased {aid fail : String} {result : Plan.StepResult} (leased : t.state = .leased)
    (attempt : t.attemptID = aid)
    (open_ : ¬(result.verdict = "pass" ∨ result.verdict = "validated")) :
    applyCommit t aid result fail = .ok (t.committed result fail) := by
  unfold applyCommit Task.committed
  rw [if_neg (not_not.mpr leased), if_neg (not_not.mpr attempt)]
  by_cases none_ : fail = ""
  · rw [if_neg (not_not.mpr none_), if_neg open_, if_pos none_, none_]
  · rw [if_pos none_, if_neg none_]

theorem refresh_unblocks (ok : JobOK lib j) (hi : j.tasks[i]? = some t) (calm : Calm t t') (fixed : t'.state ≠ .pending)
    (alone : ∀ {i' u}, j.tasks[i']? = some u → (u.id = t'.id ↔ i' = i)) :
    Unblocks t' j.tasks (refreshJob lib (j.setTask i t')).tasks := by
  have spec := refresh_setTask ok hi calm fixed
  have settled := spec.ok.settled
  have justified := spec.ok.tasks.justified
  -- no operator task waits, neither before nor after the change
  have operators : ∀ u ∈ j.tasks.set i t', u.operator = true → u.state ≠ .pending := by
    intro u hu operator pending
    rcases List.mem_or_eq_of_mem_set hu with hu | rfl
    · rw [ok.tasks.operators u hu operator] at pending
      cases pending
    · exact fixed pending
  have readied := settle_readied operators
  refine Lists.forall₂_of_getElem? spec.evolves.tasks.length_eq fun i' u u' hu hu' => ?_
  by_cases same : i' = i
  · subst same
    rw [if_pos ((alone hu).mpr rfl)]
    exact Option.some.inj (hu'.symm.trans spec.task)
  · rw [if_neg fun eq => same ((alone hu).mp eq)]
    have unset : (j.tasks.set i t')[i']? = some u := by rw [List.getElem?_set_ne (Ne.symm same), hu]
    obtain ⟨v, hv, change⟩ := Lists.forall₂_getElem? readied unset
    obtain rfl := Option.some.inj (hu'.symm.trans hv)
    have mem := List.mem_of_getElem? hu'
    rcases change with rfl | ⟨pending, rfl⟩
    · refine (if_neg fun waits => ?_).symm
      have blocked := (settled u' mem waits.1).2
      rw [waits.2.2] at blocked
      cases blocked
    · have done := justified _ mem (.inl rfl)
      exact (if_pos ⟨pending, (ok.settled u (List.mem_of_getElem? hu) pending).2, done⟩).symm

theorem setTask_eq_map {f : Task → Task} (hi : j.tasks[i]? = some t)
    (alone : ∀ {i' u}, j.tasks[i']? = some u → (u.id = t.id ↔ i' = i)) :
    j.setTask i (f t) = { j with tasks := j.tasks.map fun u => if u.id = t.id then f u else u } := by
  have tasks : j.tasks.set i (f t) = j.tasks.map fun u => if u.id = t.id then f u else u := by
    refine List.ext_getElem? fun i' => ?_
    rw [List.getElem?_map]
    cases hu : j.tasks[i']? with
    | none => simpa using hu
    | some u =>
      by_cases same : i' = i
      · subst same
        obtain rfl := Option.some.inj (hu.symm.trans hi)
        rw [List.getElem?_set_self (List.getElem?_eq_some_iff.mp hi).1, Option.map_some, if_pos rfl]
      · rw [List.getElem?_set_ne (Ne.symm same), hu, Option.map_some, if_neg fun eq => same ((alone hu).mp eq)]
  rw [Job.setTask, tasks]

end

/-! ### Leases -/

/-- Right after a lease, the calls that name it are accepted. A heartbeat changes its task, a commit also the tasks
    that waited for it and what is computed from the tasks; nothing else changes. -/
structure Addressed (lib : Lib) (q : Quota) (k : StoreKind) (s : (k.machine lib q).State) (w : Worker)
    (l : Lease) : Prop where
  stored : l.job ∈ k.jobs lib q s ∧ l.task ∈ l.job.tasks
  heartbeat : ∀ now, (k.machine lib q).Answers s (.heartbeat l.task.id l.attempt w.id now) .ok fun s' =>
    k.jobs lib q s' = Keyed.update Job.id (k.jobs lib q s)
      { l.job with tasks := l.job.tasks.map fun u => if u.id = l.task.id then { u with
        leaseUntil := now.add leaseTTL } else u }
  commit : ∀ result fail, ¬(result.verdict = "pass" ∨ result.verdict = "validated") →
    (k.machine lib q).Answers s (.commit l.task.id l.attempt result fail)
      (.task (l.task.committed result fail)) fun s' =>
      ∃ tasks, Unblocks (l.task.committed result fail) l.job.tasks tasks ∧
        k.jobs lib q s' = Keyed.update Job.id (k.jobs lib q s)
          (Job.graded lib { l.job with tasks, status := if l.job.canceled then .canceled else jobStatus tasks })

section
variable {lib : Lib} {q : Quota} {k : StoreKind} {tr : Trace} {s s' : (k.machine lib q).State}

theorem Board.Apart.addressed (apart : Board.Apart (k.jobs lib q s)) (run : (k.machine lib q).Run FreshIDs tr s)
    {l : Lease} (fresh : FreshIDs tr (.lease w now attempt) (.lease l))
    (step : (k.machine lib q).Step s (.lease w now attempt) (.lease l) s') : Addressed lib q k s' w l := by
  have inv := StoreKind.inv_of_run id run
  have board := StoreKind.board_step id run fresh step
  have run' := run.snoc fresh step
  have inv' := StoreKind.inv_of_run id run'
  have apart' := apart.step inv (show Board.Spread _ (.lease w now attempt) from trivial) board
  obtain ⟨⟨i, found⟩, state, attemptID, attempt_, worker⟩ :=
    board.leased_place inv fun leasable => k.sees_leaseJob (inv.expire now).ok leasable
  have ok := inv'.ok l.job found.mem
  have mem := List.mem_of_getElem? found.task
  have ids : normalizeIDs l.task.id l.attempt = .ok (l.task.id, attempt.text) := by
    rw [attempt_, normalizeIDs, apart'.normalized inv' found.mem mem, attempt.normalized]
  have only := apart'.only inv' found
  have alone : ∀ {i' u}, l.job.tasks[i']? = some u → (u.id = l.task.id ↔ i' = i) := by
    intro i' u hu
    refine ⟨fun eq => inv'.index_eq found.mem hu found.task eq, fun eq => ?_⟩
    subst eq
    rw [Option.some.inj (hu.symm.trans found.task)]
  refine ⟨⟨found.mem, mem⟩, fun now' => ?_, fun result fail open_ => ?_⟩
  · have renew : applyHeartbeat l.task attempt.text w.id now' = .ok { l.task with
      leaseUntil := now'.add leaseTTL } := by
      simp [applyHeartbeat, state, attemptID, worker]
    have same := setTask_eq_map (f := fun u => { u with leaseUntil := now'.add leaseTTL }) found.task alone
    rw [← same]
    exact StoreKind.heartbeat_answers run' only ids renew
  · have commit : applyCommit l.task attempt.text result fail = .ok (l.task.committed result fail) :=
      applyCommit_of_leased state attemptID open_
    obtain ⟨some_, all⟩ := StoreKind.commit_answers run' only ids commit
    refine ⟨some_, fun step' => ?_⟩
    obtain ⟨answer, jobs⟩ := all step'
    have fixed : (l.task.committed result fail).state ≠ .pending := by
      unfold Task.committed
      split_ifs <;> simp
    exact ⟨answer, _, refresh_unblocks ok found.task (applyCommit_calm commit) fixed alone, jobs⟩

/-- The tasks of a job have different ids, as the calls read them, exactly if four digits count them. -/
theorem tasks_distinct_iff {j : Job} {id : ID} (ok : JobOK lib j) (hid : j.id = id.text) :
    (j.tasks.map fun t => normalizeID t.id).Nodup ↔ j.tasks.length ≤ 65536 := by
  have ids : ∀ i t, j.tasks[i]? = some t → t.id = taskID id.text i := fun i t hi => hid ▸ (ok.tasks.ids i t hi).1
  constructor
  · intro distinct
    by_contra many
    have same : (j.tasks.map fun t => normalizeID t.id)[65536]? = (j.tasks.map fun t => normalizeID t.id)[4096]? := by
      have last := List.getElem?_eq_getElem (show 65536 < j.tasks.length by omega)
      have other := List.getElem?_eq_getElem (show 4096 < j.tasks.length by omega)
      rw [List.getElem?_map, List.getElem?_map, last, other, Option.map_some, Option.map_some, ids _ _ last,
        ids _ _ other, taskID_cut]
    have eq := (List.getElem?_inj (by rw [List.length_map]; omega) distinct).mp same
    omega
  · intro few
    rw [List.Nodup, List.pairwise_map, List.pairwise_iff_getElem]
    intro i i' hi hi' lt same
    have first := ids i _ (List.getElem?_eq_getElem hi)
    have second := ids i' _ (List.getElem?_eq_getElem hi')
    rw [first, second, taskID_normalized id (by omega), taskID_normalized id (by omega)] at same
    have := (taskID_inj (Option.some.inj same)).2
    omega

/-- Where stored jobs have ids that differ in their first twelve digits: the tasks of every job have different ids
    and every lease can be addressed exactly if no plan has more than 65536 steps. -/
theorem leases_addressed_iff (run : (k.machine lib q).Run FreshIDs tr s)
    (starts : ((k.jobs lib q s).map fun j => j.id.toList.take 12).Nodup) :
    ((∀ j ∈ k.jobs lib q s, (j.tasks.map fun t => normalizeID t.id).Nodup) ∧
      ∀ w now attempt l s', FreshIDs tr (.lease w now attempt) (.lease l) →
        (k.machine lib q).Step s (.lease w now attempt) (.lease l) s' → Addressed lib q k s' w l) ↔
    ∀ j ∈ k.jobs lib q s, j.plan.steps.length ≤ 65536 := by
  have inv := StoreKind.inv_of_run id run
  have count : ∀ j ∈ k.jobs lib q s, (j.tasks.map fun t => normalizeID t.id).Nodup ↔ j.plan.steps.length ≤ 65536 := by
    intro j hj
    obtain ⟨jobID, hid, -⟩ := (inv.created j hj).id
    have steps : j.tasks.length = j.plan.steps.length := by simpa using congrArg List.length (inv.created j hj).steps
    rw [← steps]
    exact tasks_distinct_iff (inv.ok j hj) hid
  constructor
  · rintro ⟨distinct, -⟩ j hj
    exact (count j hj).mp (distinct j hj)
  · intro few
    have apart : Board.Apart (k.jobs lib q s) := by
      refine ⟨starts, fun j hj => ?_⟩
      obtain ⟨jobID, hid, -⟩ := (inv.created j hj).id
      exact (tasks_distinct_iff (inv.ok j hj) hid).mp ((count j hj).mpr (few j hj))
    exact ⟨fun j hj => (count j hj).mpr (few j hj), fun w now attempt l s' fresh step => apart.addressed run fresh step⟩

end

open Sample in
theorem leases_addressed_iff_sample :
    ∃ l s', (StoreKind.memory.machine Lib.plain {}).Step (play .memory [create]).2 lease (.lease l) s' ∧
    Addressed Lib.plain {} .memory s' { id := "w" } l := by
  have run := Sample.run .memory [create] (by decide +kernel)
  have addressed := ((leases_addressed_iff run (by decide +kernel)).mpr (by decide +kernel)).2
  have step := StoreKind.memory.call_step (play .memory [create]).2 lease
  have fresh : FreshIDs (play .memory [create]).1 lease
    (StoreKind.memory.call Lib.plain {} (play .memory [create]).2 lease).2 := by
    decide +kernel
  obtain ⟨l, returned, -⟩ : ∃ l, (StoreKind.memory.call Lib.plain {} (play .memory [create]).2 lease).2 = .lease l ∧
    true = true :=
    Resp.exists_lease (p := fun _ => true) (by decide +kernel)
  rw [returned] at step fresh
  exact ⟨l, _, step, addressed _ _ _ l _ fresh step⟩

/-! ### A plan that fits the request -/

namespace Sample
open Json

def request (n : Nat) : Doc :=
  .obj [("baseline", .str ("http://a".toList.map some)), ("patch", .str ("http://b".toList.map some)),
    ("workload", .obj [("steps", .arr [.obj [("method", .str ("GET".toList.map some)),
      ("path", .str ("/".toList.map some))]])]),
    ("plan", .obj [("steps", .arr (List.replicate (n + 1) (.obj [])))])]

def bare : Plan.Step := { id := "", kind := "" }

theorem length_request (n : Nat) :
    (write compact 0 (request n)).length = (write compact 0 (request 0)).length + 3 * n := by
  have rest : ∀ n k, (writeRest compact k (List.replicate n (.obj []))).length = 3 * n + 1 := by
    intro n k
    induction n with
    | zero => simp [writeRest, compact]
    | succ n ih =>
      rw [List.replicate_succ]
      simp only [writeRest, write, compact, List.nil_append, List.length_cons, List.length_append,
        List.length_nil] at ih ⊢
      omega
  simp only [request, List.replicate_succ, write, writeMore, writeRest, List.length_cons, List.length_append, rest]
  omega

theorem holes_request (n : Nat) : (request n).holes = 0 := by
  have steps : ∀ n, holesList (List.replicate n (.obj [])) = 0 := by
    intro n
    induction n with
    | zero => rfl
    | succ n ih =>
      rw [List.replicate_succ, holesList, ih]
      rfl
  simp [request, Doc.holes, holesFields, holesList, steps]

theorem read_request (t : Texts) (n : Nat) :
    ((createCodec t).ofDoc (request n)).map CreateWire.opts = some (opts (List.replicate (n + 1) bare)) := by
  have each : Wire.step.ofDoc (.obj []) = some bare := rfl
  have steps : readFieldOf "steps" (.list true Wire.step) [("steps", .arr (List.replicate (n + 1) (.obj [])))] =
      some (List.replicate (n + 1) bare) := readAll_replicate each (n + 1)
  have plan : Wire.dag.ofDoc (.obj [("steps", .arr (List.replicate (n + 1) (.obj [])))]) =
      some { steps := List.replicate (n + 1) bare } :=
    ofDoc_struct (by simp) <| ofFields_always steps <| ofFields_nonzero rfl <| ofFields_nonzero rfl
      <| ofFields_nonzero rfl <|
      ofFields_nonzero rfl rfl
  have wire : (createCodec t).ofDoc (request n) = some _ :=
    ofDoc_struct (by simp) <| ofFields_nonzero rfl <| ofFields_nonzero rfl <| ofFields_always rfl
      <| ofFields_always rfl <|
      ofFields_nonzero rfl <| ofFields_always rfl <| ofFields_always rfl <| ofFields_always plan
        <| ofFields_nonzero rfl <|
      ofFields_nonzero rfl rfl
  rw [wire]
  rfl

theorem validateCreate_opts (n : Nat) :
    validateCreate Lib.plain clock.validate (opts (List.replicate (n + 1) bare)) = none := by
  have one : validateCreate Lib.plain clock.validate (opts [bare]) = none := by decide +kernel
  rw [← one]
  simp only [validateCreate, checkOpts, opts, List.replicate_succ, reduceCtorEq, if_false]
  rfl

def submit (n : Nat) : Memory × CreateResponse :=
  handleCreateJob Texts.plain (some fun o => Memory.create Lib.plain {} o jobID clock)
    (some (bytes (.ofList (write compact 0 (request n))))) {}

theorem submit_eq (fits : (bytes (.ofList (write compact 0 (request n)))).length ≤ maxJobBytes) :
    submit n = ({ byID := [buildJob Lib.plain (opts (List.replicate (n + 1) bare)) jobID.text
      clock.build], order := [jobID.text] },
      { status := Api.statusOK, body := .ok (buildJob Lib.plain (opts (List.replicate (n + 1) bare)) jobID.text
        clock.build) }) := by
  have read := (unmarshalJSON_write (t := Texts.plain) (holes_request n)).trans (read_request Texts.plain n)
  have unvalidated : (buildJob Lib.plain (opts (List.replicate (n + 1) bare)) jobID.text clock.build).validated =
    false :=
    buildJob_unvalidated _ _ _ _ (s := bare) (by simp [opts, List.replicate_succ]) rfl
  have created : Memory.create Lib.plain {} (opts (List.replicate (n + 1) bare)) jobID clock {} =
      ({ byID := [buildJob Lib.plain (opts (List.replicate (n + 1) bare)) jobID.text
        clock.build], order := [jobID.text] },
        .job (buildJob Lib.plain (opts (List.replicate (n + 1) bare)) jobID.text clock.build)) := by
    rw [Memory.create, validateCreate_opts n]
    rfl
  rw [submit]
  generalize bytes (.ofList (write compact 0 (request n))) = raw at fits read ⊢
  have short : (some raw).filter (fun raw => raw.length ≤ maxJobBytes + 1) = some raw := by
    rw [Option.filter_some, if_pos (by simpa using Nat.le_succ_of_le fits)]
  simp only [handleCreateJob, short, if_neg fits.not_gt, read, created, unvalidated, Bool.false_eq_true, if_false]

theorem request_fits (few : n ≤ 80000) : (bytes (.ofList (write compact 0 (request n)))).length ≤ maxJobBytes := by
  have first : (write compact 0 (request 0)).length ≤ 200 := by decide
  have size := Utf8.length_encode_le (write compact 0 (request n))
  rw [bytes_eq_encode, String.toList_ofList]
  rw [length_request] at size
  rw [maxJobBytes]
  omega

/-- With one step more than four digits count, the ids of the tasks repeat. -/
theorem tasks_repeat (many : 65536 ≤ n) :
    ¬((buildJob Lib.plain (opts (List.replicate (n + 1) bare)) jobID.text clock.build).tasks.map fun t =>
      normalizeID t.id).Nodup := by
  rw [tasks_distinct_iff (buildJob_ok Lib.plain (opts (List.replicate (n + 1) bare)) jobID.text clock.build) rfl,
    ← (buildJob_tasks Lib.plain (opts (List.replicate (n + 1) bare)) jobID.text clock.build).length_eq]
  simpa [planTasks, opts] using Nat.lt_succ_of_le many

end Sample

open Sample in
/-- A request of less than a mebibyte makes a job in which the last task has the id of another, as the calls read it. -/
theorem submitted_collision : ∃ raw m job, raw.length ≤ maxJobBytes ∧
    handleCreateJob Texts.plain (some fun o => Memory.create Lib.plain {} o jobID clock) (some raw) {} =
      (m, { status := Api.statusOK, body := .ok job }) ∧
    m.byID = [job] ∧ job.plan.steps.length = 65537 ∧ ¬(job.tasks.map fun t => normalizeID t.id).Nodup := by
  have fits := request_fits (n := 65536) (by decide)
  exact ⟨_, _, _, fits, submit_eq fits, rfl, List.length_replicate, tasks_repeat le_rfl⟩

end Aquila.Jobs

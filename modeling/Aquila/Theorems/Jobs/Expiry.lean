import Aquila.Theorems.Jobs.Stores

/-! Expiry: what a pass over the jobs does to leases and deadlines that have passed, and which expired leases it
    takes back. -/

namespace Aquila.Jobs

/-! ### One task -/

/-- A lease that `requeue` takes back. -/
def Expired (now : Time) (t : Task) : Prop := t.state = .leased ∧ t.leaseUntil ≠ 0 ∧ t.leaseUntil < now

instance (now : Time) : DecidablePred (Expired now) := fun _ => inferInstanceAs (Decidable (_ ∧ _ ∧ _))

section
variable {t : Task} {now : Time}

theorem requeue_current (h : ¬Expired now t) (canceled : Bool) : requeue t now canceled = none := by
  unfold requeue
  split_ifs with unleased current <;> first | rfl | skip
  all_goals
    simp only [Time.isZero, Time.before, Bool.or_eq_true, Bool.not_eq_true', decide_eq_true_eq, decide_eq_false_iff_not,
      not_or, not_not] at unleased current
    exact absurd ⟨unleased, current⟩ h

theorem requeue_expired (h : Expired now t) (canceled : Bool) : ∃ t', requeue t now canceled = some t' ∧
    t'.workerID = "" ∧ (canceled = true ∧ t'.state = .skipped ∧ t'.err = "canceled" ∨ canceled = false ∧
      t'.state = .ready) := by
  obtain ⟨leased, nonzero, passed⟩ := h
  unfold requeue
  cases canceled <;> simp [leased, nonzero, passed, Time.isZero, Time.before]

theorem deadlineTask_of_live (h : t.state.terminal = false) :
    (deadlineTask t).state = .failed ∧ (deadlineTask t).err = "deadline" ∧ (deadlineTask t).workerID = "" := by
  unfold deadlineTask
  cases hs : t.state <;> simp_all [TaskState.terminal]

end

/-! ### One job -/

/-- The deadline of a job: its own, or ten minutes after its creation. -/
def Job.effectiveDeadline (j : Job) : Time := if j.deadline = 0 then j.created + defaultDeadline else j.deadline

/-- A job that the pass fails. -/
def Overdue (now : Time) (j : Job) : Prop := j.ended = false ∧ ∃ d ∈ j.due, d < now

theorem due_eq {j : Job} {d : Time} (h : d ∈ j.due) : d = j.effectiveDeadline := by
  unfold Job.due at h
  unfold Job.effectiveDeadline
  by_cases unset : j.deadline = 0
  · by_cases uncreated : j.created = 0
    · simp [unset, uncreated, Time.isZero] at h
    · simpa [unset, uncreated, Time.isZero, Time.add, eq_comm] using h
  · simpa [unset, Time.isZero, eq_comm] using h

section
variable {lib : Lib} {j j' : Job} {now : Time}

theorem failDeadline_overdue (h : Overdue now j) :
    failDeadline lib now j = some (Job.graded lib { j with tasks := j.tasks.map deadlineTask, status := .failed }) := by
  obtain ⟨going, d, due, passed⟩ := h
  unfold failDeadline
  rw [if_neg]
  simpa [going, Option.mem_def.mp due, Time.after] using passed

theorem failDeadline_current (h : ¬Overdue now j) : failDeadline lib now j = none := by
  refine if_pos ?_
  by_contra going
  simp only [not_or, Bool.not_eq_true', Bool.not_eq_true, Bool.not_eq_false] at going
  cases due : j.due with
  | none => simp [due] at going
  | some d => exact h ⟨going.2, d, due, by simpa [due, Time.after] using going.1⟩

theorem expireJob_overdue (h : Overdue now j) :
    (expireJob lib now j).1 = Job.graded lib { j with tasks := j.tasks.map deadlineTask, status := .failed } := by
  unfold expireJob
  rw [failDeadline_overdue h]

theorem expireJob_current (settled : Settled j.tasks) (h : ¬Overdue now j) :
    (expireJob lib now j).1.tasks = settle (j.tasks.map fun t => (requeue t now j.canceled).getD t) := by
  unfold expireJob
  rw [failDeadline_current h]
  dsimp only
  split_ifs with none_
  · have same : (j.tasks.map fun t => (requeue t now j.canceled).getD t) = j.tasks := by
      refine (List.map_congr_left fun t ht => ?_).trans (List.map_id _)
      have := List.countP_eq_zero.mp none_ t ht
      rw [Option.not_isSome_iff_eq_none.mp this]
      rfl
    rw [same, settle_of_settled settled]
  · rfl

/-- What the pass does to a leased task: it stays as it is, is requeued, or fails with its job. -/
inductive Passed (now : Time) (j j' : Job) (t : Task) : Task → Prop
  | kept : ¬Expired now t → Passed now j j' t t
  | requeued {t' : Task} : Expired now t → t'.workerID = "" →
      (j.canceled = true ∧ t'.state = .skipped ∧ t'.err = "canceled" ∨ j.canceled = false ∧ t'.state = .ready) →
      Passed now j j' t t'
  | failed {t' : Task} : Overdue now j → j'.status = .failed → t'.workerID = "" → t'.state = .failed →
    t'.err = "deadline" →
      Passed now j j' t t'

theorem expireJob_passed (lib : Lib) (now : Time) (settled : Settled j.tasks) :
    List.Forall₂ (fun t t' => t.state = .leased → Passed now j (expireJob lib now j).1 t t') j.tasks
    (expireJob lib now j).1.tasks := by
  by_cases overdue : Overdue now j
  · rw [expireJob_overdue overdue]
    refine List.forall₂_map_right_iff.mpr (List.forall₂_same.mpr fun t _ leased => ?_)
    obtain ⟨failed, err, worker⟩ := deadlineTask_of_live (t := t) (by simp [leased, TaskState.terminal])
    exact .failed overdue rfl worker failed err
  · rw [expireJob_current settled overdue]
    have requeued : List.Forall₂ (fun t t' => t.state = .leased → Passed now j (expireJob lib now j).1 t t' ∧
      t'.state ≠ .pending)
        j.tasks (j.tasks.map fun t => (requeue t now j.canceled).getD t) := by
      refine List.forall₂_map_right_iff.mpr (List.forall₂_same.mpr fun t _ leased => ?_)
      by_cases expired : Expired now t
      · obtain ⟨t', eq, worker, state⟩ := requeue_expired expired j.canceled
        rw [eq]
        refine ⟨.requeued expired worker state, ?_⟩
        rcases state with ⟨-, skipped, -⟩ | ⟨-, ready⟩ <;> simp [*]
      · rw [requeue_current expired j.canceled]
        exact ⟨.kept expired, by simp [leased]⟩
    refine Lists.forall₂_trans requeued (settle_settling _) fun t t' t'' passed settling leased => ?_
    rw [settling.eq (passed leased).2]
    exact (passed leased).1

theorem Passed.not_expired {t t' : Task} (h : Passed now j j' t t') : ¬Expired now t' := by
  rintro ⟨leased, rest⟩
  cases h with
  | kept current => exact current ⟨leased, rest⟩
  | requeued _ _ state => rcases state with ⟨-, skipped, -⟩ | ⟨-, ready⟩ <;> simp_all
  | failed _ _ _ state _ => rw [state] at leased; cases leased

theorem expireJob_reaped (ok : JobOK lib j) {t' : Task} (ht' : t' ∈ (expireJob lib now j).1.tasks) :
    ¬Expired now t' := by
  intro expired
  obtain ⟨i, hi⟩ := List.mem_iff_getElem?.mp ht'
  obtain ⟨t, ht, kept⟩ := Lists.forall₂_getElem?_right (expireJob_spec ok now).tasks hi
  obtain ⟨t'', ht'', passed⟩ := Lists.forall₂_getElem? (expireJob_passed lib now ok.settled) ht
  obtain rfl := Option.some.inj (hi.symm.trans ht'')
  exact (passed (kept.leased expired.1).1).not_expired expired

end

/-! ### Expired leases -/

/-- What a released task is: ready again, skipped in a canceled job, or failed in a job whose deadline has passed. -/
structure Released (now : Time) (j j' : Job) (t' : Task) : Prop where
  worker : t'.workerID = ""
  state : t'.state = .ready ∧ j.canceled = false ∨
    t'.state = .skipped ∧ t'.err = "canceled" ∧ j.canceled = true ∨
    t'.state = .failed ∧ t'.err = "deadline" ∧ j.occupies = true ∧ j.effectiveDeadline < now ∧ j'.status = .failed

/-- No expired lease is left, and every task that lost its lease was released. -/
structure Reaped (now : Time) (js js' : List Job) : Prop where
  reaped : ∀ j' ∈ js', ∀ t' ∈ j'.tasks, ¬Expired now t'
  released : List.Forall₂ (fun j j' : Job => j'.id = j.id ∧
    List.Forall₂ (fun t t' : Task => t'.id = t.id ∧ (t.state = .leased → t'.state ≠ .leased → Released now j j' t'))
      j.tasks j'.tasks)
    js js'

theorem Passed.released {lib : Lib} {now : Time} {j j' : Job} {t t' : Task} (ok : JobOK lib j)
    (h : Passed now j j' t t')
    (leased : t.state = .leased) (lost : t'.state ≠ .leased) : Released now j j' t' := by
  cases h with
  | kept => exact absurd leased lost
  | requeued _ worker state =>
    rcases state with ⟨canceled, skipped, err⟩ | ⟨canceled, ready⟩
    · exact ⟨worker, .inr (.inl ⟨skipped, err, canceled⟩)⟩
    · exact ⟨worker, .inl ⟨ready, canceled⟩⟩
  | failed overdue status worker state err =>
    obtain ⟨going, d, due, passed⟩ := overdue
    rw [ok.ended_eq, Bool.not_eq_false'] at going
    exact ⟨worker, .inr (.inr ⟨state, err, going, due_eq due ▸ passed, status⟩)⟩

theorem Board.expire_released {lib : Lib} {sees : Job → Bool} {js : List Job} (ok : ∀ j ∈ js, JobOK lib j)
    (now : Time) :
    List.Forall₂ (fun j j' : Job => j'.id = j.id ∧
      List.Forall₂ (fun t t' : Task => t'.id = t.id ∧ (t.state = .leased → t'.state ≠ .leased → Released now j j' t'))
      j.tasks j'.tasks)
      js (expire lib sees now js) := by
  refine List.forall₂_map_right_iff.mpr (List.forall₂_same.mpr fun j hj => ?_)
  split_ifs with seen
  · have keeps := expireJob_spec (ok j hj) now
    refine ⟨keeps.evolves.id, Lists.forall₂_of_getElem? keeps.tasks.length_eq fun i t t' hi hi' => ?_⟩
    obtain ⟨u, hu, kept⟩ := Lists.forall₂_getElem? keeps.tasks hi
    obtain ⟨v, hv, passed⟩ := Lists.forall₂_getElem? (expireJob_passed lib now (ok j hj).settled) hi
    obtain rfl := Option.some.inj (hi'.symm.trans hu)
    obtain rfl := Option.some.inj (hi'.symm.trans hv)
    exact ⟨static_id kept.static, fun leased => (passed leased).released (ok j hj) leased⟩
  · exact ⟨rfl, List.forall₂_same.mpr fun t _ => ⟨rfl, fun leased lost => absurd leased lost⟩⟩

/-- `RequeueExpired` takes back every expired lease, exactly when the store is in memory or no finished job holds an
    expired lease. -/
theorem leases_reaped {lib : Lib} {q : Quota} {k : StoreKind} {tr : Trace} {s s' : (k.machine lib q).State}
    {now : Time} {n : Nat}
    (run : (k.machine lib q).Run FreshIDs tr s) (step : (k.machine lib q).Step s (.requeueExpired now) (.count n) s') :
    Reaped now (k.jobs lib q s) (k.jobs lib q s') ↔
      (k = .postgres → ∀ j ∈ k.jobs lib q s, j.occupies = false → ∀ t ∈ j.tasks, ¬Expired now t) := by
  have inv := StoreKind.inv_of_run id run
  have board := StoreKind.board_step id run (by simp [FreshIDs, drawn]) step
  generalize k.jobs lib q s' = js' at board
  generalize k.jobs lib q s = js at board inv
  cases board with
  | requeued =>
  constructor
  · rintro reaped rfl j hj finished
    refine reaped.reaped j (List.mem_map.mpr ⟨j, hj, if_neg ?_⟩)
    simp [StoreKind.sees, finished]
  · refine fun quiet => ⟨fun j' hj' t' ht' => ?_, Board.expire_released inv.ok now⟩
    obtain ⟨j, hj, rfl⟩ := List.mem_map.mp hj'
    split_ifs at ht' with seen
    · exact expireJob_reaped (inv.ok j hj) ht'
    · cases k with
      | memory => exact absurd rfl seen
      | postgres => exact quiet rfl j hj (by simpa [StoreKind.sees] using seen) t' ht'

namespace Sample

def reap : Op := .requeueExpired (minute + 6000000)

end Sample

open Sample in
theorem leases_reaped_sample :
    ∃ n, (StoreKind.postgres.call Lib.plain {} (play .postgres [create, lease]).2 reap).2 = .count n ∧
    Reaped (minute + 6000000) (StoreKind.jobs Lib.plain {} .postgres (play .postgres [create, lease]).2)
      (StoreKind.jobs Lib.plain {} .postgres (StoreKind.postgres.call Lib.plain {} (play .postgres [create, lease]).2
        reap).1) := by
  have run := Sample.run .postgres [create, lease] (by decide +kernel)
  have step := StoreKind.postgres.call_step (play .postgres [create, lease]).2 reap
  exact ⟨_, rfl, (leases_reaped run step).mpr fun _ => by decide +kernel⟩

open Sample in
/-- `Postgres` does not look at finished jobs: the task of a canceled job stays leased after its lease has expired. -/
theorem leases_reaped_fails :
    (StoreKind.postgres.machine Lib.plain {}).Run FreshIDs (play .postgres [create, lease, cancel]).1
      (play .postgres [create, lease, cancel]).2 ∧
    ∃ n s', (StoreKind.postgres.machine Lib.plain {}).Step (play .postgres [create, lease, cancel]).2 reap
    (.count n) s' ∧
      ¬Reaped (minute + 6000000) (StoreKind.jobs Lib.plain {} .postgres (play .postgres [create, lease, cancel]).2)
        (StoreKind.jobs Lib.plain {} .postgres s') := by
  refine ⟨Sample.run .postgres [create, lease, cancel] (by decide +kernel), _, _,
    StoreKind.postgres.call_step (play .postgres [create, lease, cancel]).2 reap, fun reaped => ?_⟩
  obtain ⟨j, hj, t, ht, expired⟩ : ∃ j ∈ StoreKind.jobs Lib.plain {} .postgres
      (StoreKind.postgres.call Lib.plain {} (play .postgres [create, lease, cancel]).2 reap).1,
      ∃ t ∈ j.tasks, Expired (minute + 6000000) t := by decide +kernel
  exact reaped.reaped j hj t ht expired

end Aquila.Jobs

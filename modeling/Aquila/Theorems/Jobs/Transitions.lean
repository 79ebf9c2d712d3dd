import Aquila.Jobs.Board
import Aquila.Theorems.Jobs.Settle

/-! The transitions of a job: each keeps the representation invariant `JobOK`, keeps what `Create` fixed, and
    leaves alone what is over. -/

namespace Aquila.Jobs
variable {ts ts' : List Task} {now : Time} {attempt : String}

/-! ### The invariant of a job -/

/-- The part of the invariant about tasks that `refreshJob` relies on. -/
structure TasksOK (id : String) (ts : List Task) : Prop where
  held : ∀ t ∈ ts, Held t
  operators : ∀ t ∈ ts, t.operator = true → t.state = .skipped
  ids : ∀ i t, ts[i]? = some t → t.id = taskID id i ∧ t.jobID = id
  justified : Justified ts

/-- The representation invariant of a stored job. -/
structure JobOK (lib : Lib) (j : Job) : Prop where
  tasks : TasksOK j.id j.tasks
  settled : Settled j.tasks
  status : j.status = if j.canceled then .canceled else jobStatus j.tasks
  graded : j.graded lib = j

/-- What `Create` fixes of a job. -/
def Job.static (j : Job) : Job :=
  { j with status := .pending, canceled := false, tasks := j.tasks.map Task.static, blockers := [], validated := false }

/-- Every transition of a job: what `Create` fixed stays, the tasks grow, and a status that does not occupy
    the gateways is final. -/
structure Evolves (j j' : Job) : Prop where
  static : j'.static = j.static
  tasks : List.Forall₂ Grows j.tasks j'.tasks
  status : j.occupies = false → j'.status = j.status

theorem Evolves.refl (j : Job) : Evolves j j := ⟨rfl, List.forall₂_same.mpr fun t _ => .refl t, fun _ => rfl⟩

theorem Evolves.trans {j j' j'' : Job} (h : Evolves j j') (h' : Evolves j' j'') : Evolves j j'' := by
  refine ⟨h'.static.trans h.static, Lists.forall₂_trans h.tasks h'.tasks fun _ _ _ => Grows.trans, fun finished => ?_⟩
  have same := h.status finished
  have finished' : j'.occupies = false := by rw [Job.occupies, same]; exact finished
  exact (h'.status finished').trans same

theorem Evolves.id {j j' : Job} (h : Evolves j j') : j'.id = j.id := by
  have := congrArg Job.id h.static
  exact this

/-- A transition that keeps the invariant and leases and commits nothing. -/
structure Keeps (lib : Lib) (j j' : Job) : Prop where
  ok : JobOK lib j'
  evolves : Evolves j j'
  tasks : List.Forall₂ Kept j.tasks j'.tasks

theorem Keeps.refl {lib : Lib} {j : Job} (ok : JobOK lib j) : Keeps lib j j :=
  ⟨ok, .refl j, List.forall₂_same.mpr fun t _ => .refl t⟩

/-! ### Statuses -/

theorem jobStatus_failed_iff : jobStatus ts = .failed ↔ ∃ t ∈ ts, t.state = .failed := by
  unfold jobStatus
  split_ifs with failed <;> simp_all

theorem jobStatus_complete_iff : jobStatus ts = .complete ↔ ∀ t ∈ ts, t.state.done = true := by
  unfold jobStatus
  split_ifs with failed live pending
  · obtain ⟨t, ht, hs⟩ := List.any_eq_true.mp failed
    simp only [false_iff, not_forall]
    exact ⟨t, ht, by simp_all [TaskState.done]⟩
  · obtain ⟨t, ht, hs⟩ := List.any_eq_true.mp live
    simp only [false_iff, not_forall]
    refine ⟨t, ht, ?_⟩
    simp only [Bool.or_eq_true, decide_eq_true_eq] at hs
    rcases hs with hs | hs <;> simp [hs, TaskState.done]
  · obtain ⟨t, ht, hs⟩ := List.any_eq_true.mp pending
    simp only [false_iff, not_forall]
    exact ⟨t, ht, by simp_all [TaskState.done]⟩
  · simp only [true_iff]
    intro t ht
    have notFailed : t.state ≠ .failed := fun h => failed (List.any_eq_true.mpr ⟨t, ht, by simpa using h⟩)
    have notLive : ¬(t.state = .leased ∨ t.state = .ready) :=
      fun h => live (List.any_eq_true.mpr ⟨t, ht, by simpa using h⟩)
    have notPending : t.state ≠ .pending := fun h => pending (List.any_eq_true.mpr ⟨t, ht, by simpa using h⟩)
    cases hs : t.state <;> simp_all [TaskState.done]

theorem jobStatus_ne_canceled (ts : List Task) : jobStatus ts ≠ .canceled := by
  unfold jobStatus
  split_ifs <;> simp

theorem jobStatus_eq_of_states (h : ts'.map (·.state) = ts.map (·.state)) :
    jobStatus ts' = jobStatus ts := by
  have any_ : ∀ p : TaskState → Bool, (ts'.any fun t => p t.state) = ts.any fun t => p t.state := by
    intro p
    have := congrArg (List.any · p) h
    simpa [List.any_map, Function.comp_def] using this
  unfold jobStatus
  rw [any_ (· = .failed), any_ (fun s => s = .leased || s = .ready), any_ (· = .pending)]

theorem jobStatus_of_live {t : Task} (ht : t ∈ ts) (live : t.state = .ready ∨ t.state = .leased) :
    jobStatus ts = if ∃ t ∈ ts, t.state = .failed then .failed else .running := by
  have any_ : (ts.any fun t => t.state = .leased || t.state = .ready) = true :=
    List.any_eq_true.mpr ⟨t, ht, by simpa using live.symm⟩
  unfold jobStatus
  simp [any_]

theorem jobStatus_final (h : List.Forall₂ Grows ts ts')
    (finished : jobStatus ts = .failed ∨ jobStatus ts = .complete) : jobStatus ts' = jobStatus ts := by
  rcases finished with failed | complete
  · obtain ⟨t, ht, hs⟩ := jobStatus_failed_iff.mp failed
    obtain ⟨t', ht', grows⟩ := Lists.forall₂_mem_left h ht
    have same := grows.terminal (by simp [hs, TaskState.terminal])
    rw [failed]
    exact jobStatus_failed_iff.mpr ⟨t', ht', same ▸ hs⟩
  · rw [complete]
    refine jobStatus_complete_iff.mpr fun t' ht' => ?_
    obtain ⟨t, ht, grows⟩ := Lists.forall₂_mem_right h ht'
    have done := jobStatus_complete_iff.mp complete t ht
    have same := grows.terminal (by simp only [TaskState.done, TaskState.terminal] at done ⊢; cases hs :
      t.state <;> simp_all)
    exact same ▸ done

section
variable {lib : Lib} {j : Job}

theorem JobOK.ended_eq (ok : JobOK lib j) : j.ended = !j.occupies := by
  have status := ok.status
  unfold Job.ended Job.occupies
  cases hc : j.canceled with
  | true =>
    rw [hc, if_pos rfl] at status
    simp [status]
  | false => cases hs : j.status <;> simp

theorem JobOK.finished (ok : JobOK lib j) (h : j.occupies = false) :
    j.canceled = true ∧ j.status = .canceled ∨
      j.canceled = false ∧ j.status = jobStatus j.tasks ∧
      (jobStatus j.tasks = .failed ∨ jobStatus j.tasks = .complete) := by
  have status := ok.status
  cases hc : j.canceled with
  | true => rw [hc, if_pos rfl] at status; exact .inl ⟨rfl, status⟩
  | false =>
    rw [hc, if_neg Bool.false_ne_true] at status
    refine .inr ⟨rfl, status, ?_⟩
    have notCanceled := jobStatus_ne_canceled j.tasks
    unfold Job.occupies at h
    rw [status] at h
    cases hs : jobStatus j.tasks <;> simp_all

end

/-! ### Tasks under a transition -/

def Live (t : Task) : Prop := t.state = .ready ∨ t.state = .leased

instance : DecidablePred Live := fun _ => inferInstanceAs (Decidable (_ ∨ _))

/-- Every operation but `settle`: no task starts to be live. -/
structure Calm (t t' : Task) : Prop where
  grows : Grows t t'
  live : Live t' → Live t
  held : Held t → Held t'

theorem Calm.refl (t : Task) : Calm t t := ⟨.refl t, id, id⟩

theorem TasksOK.calm {id : String} (ok : TasksOK id ts) (h : List.Forall₂ Calm ts ts') :
    TasksOK id ts' := by
  have grows : List.Forall₂ Grows ts ts' := h.imp fun _ _ => Calm.grows
  refine ⟨fun t' ht' => ?_, fun t' ht' op => ?_, fun i t' hi => ?_, fun t' ht' live => ?_⟩
  · obtain ⟨t, ht, calm⟩ := Lists.forall₂_mem_right h ht'
    exact calm.held (ok.held t ht)
  · obtain ⟨t, ht, calm⟩ := Lists.forall₂_mem_right h ht'
    have skipped := ok.operators t ht ((static_operator calm.grows.static).symm.trans op)
    rw [calm.grows.terminal (by simp [skipped, TaskState.terminal])]
    exact skipped
  · obtain ⟨t, ht, calm⟩ := Lists.forall₂_getElem?_right h hi
    obtain ⟨id_, jobID⟩ := ok.ids i t ht
    exact ⟨(static_id calm.grows.static).trans id_, (static_jobID calm.grows.static).trans jobID⟩
  · obtain ⟨t, ht, calm⟩ := Lists.forall₂_mem_right h ht'
    exact depsOK_mono grows (static_dependsOn calm.grows.static) (ok.justified t ht (calm.live live))

theorem TasksOK.settle {id : String} (ok : TasksOK id ts) : TasksOK id (settle ts) := by
  have kept := settle_kept ok.held
  refine ⟨Kept.forall₂_held kept ok.held, fun t' ht' op => ?_, fun i t' hi => ?_, settle_justified ok.held ok.justified⟩
  · obtain ⟨t, ht, kept⟩ := Lists.forall₂_mem_right kept ht'
    have skipped := ok.operators t ht ((static_operator kept.static).symm.trans op)
    rw [kept.terminal (by simp [skipped, TaskState.terminal])]
    exact skipped
  · obtain ⟨t, ht, kept⟩ := Lists.forall₂_getElem?_right kept hi
    obtain ⟨id_, jobID⟩ := ok.ids i t ht
    exact ⟨(static_id kept.static).trans id_, (static_jobID kept.static).trans jobID⟩

/-! ### `refreshJob` -/

theorem refreshJob_ok {lib : Lib} {j : Job} (ok : TasksOK j.id j.tasks) : JobOK lib (refreshJob lib j) :=
  ⟨ok.settle, settle_settled j.tasks, rfl, rfl⟩

theorem refreshJob_static {lib : Lib} {j : Job} (held : ∀ t ∈ j.tasks, Held t) :
    (refreshJob lib j).static = j.static := by
  have tasks := Lists.map_eq_of_forall₂ (settle_kept held) fun _ _ => Kept.static
  simp only [Job.static, refreshJob, Job.graded, tasks]

theorem refreshJob_evolves {lib : Lib} {j j₁ : Job} (ok : JobOK lib j) (static : j₁.static = j.static)
    (calm : List.Forall₂ Calm j.tasks j₁.tasks)
    (canceled : j₁.canceled = j.canceled ∨ j.ended = false ∧ j₁.canceled = true) :
    JobOK lib (refreshJob lib j₁) ∧ Evolves j (refreshJob lib j₁) := by
  have id_ : j₁.id = j.id := by
    have := congrArg Job.id static
    exact this
  have tasks : TasksOK j₁.id j₁.tasks := id_ ▸ ok.tasks.calm calm
  have grows : List.Forall₂ Grows j.tasks (settle j₁.tasks) :=
    Lists.forall₂_trans calm (settle_kept tasks.held) fun _ _ _ c k => c.grows.trans k.grows
  refine ⟨refreshJob_ok tasks, (refreshJob_static tasks.held).trans static, grows, fun finished => ?_⟩
  -- a job that is over is not canceled now, so its status is recomputed from final tasks
  have same : j₁.canceled = j.canceled := by
    rcases canceled with same | ⟨live, -⟩
    · exact same
    · rw [ok.ended_eq, finished] at live; exact absurd live (by simp)
  show (if j₁.canceled then JobStatus.canceled else jobStatus (settle j₁.tasks)) = j.status
  rcases ok.finished finished with ⟨flag, status⟩ | ⟨flag, status, final⟩
  · rw [same, flag, if_pos rfl, status]
  · rw [same, flag, if_neg Bool.false_ne_true, status]
    exact jobStatus_final grows final

/-! ### Expiry -/

theorem deadlineTask_kept (t : Task) : Kept t (deadlineTask t) := by
  unfold deadlineTask
  split_ifs with live
  · refine .of_released rfl rfl rfl (by simp) ?_ rfl
    rcases live with h | h | h <;> simp [h, TaskState.terminal]
  · exact .refl t

theorem deadlineTask_over (t : Task) : (deadlineTask t).state.terminal = true := by
  unfold deadlineTask
  split_ifs with live
  · rfl
  · cases hs : t.state <;> simp_all [TaskState.terminal]

theorem not_live_of_terminal {t : Task} (h : t.state.terminal = true) : ¬Live t := by
  rintro (hs | hs) <;> simp [hs, TaskState.terminal] at h

theorem requeued_kept (t : Task) (now : Time) (canceled : Bool) : Kept t ((requeue t now canceled).getD t) := by
  cases h : requeue t now canceled with
  | none => exact .refl t
  | some t' => exact requeue_kept h

theorem requeued_live {t : Task} {canceled : Bool} (h : Live ((requeue t now canceled).getD t)) : Live t := by
  cases hr : requeue t now canceled with
  | none => rw [hr] at h; exact h
  | some t' =>
    unfold requeue at hr
    split_ifs at hr with unleased
    all_goals exact .inr (not_not.mp unleased)

theorem failDeadline_spec {lib : Lib} {j j' : Job} (ok : JobOK lib j) (h : failDeadline lib now j = some j') :
    Keeps lib j j' := by
  unfold failDeadline at h
  split_ifs at h with skipped
  simp only [not_or, Bool.not_eq_true] at skipped
  obtain rfl := Option.some.inj h
  have occupies : j.occupies = true := by
    have := ok.ended_eq
    rw [skipped.2] at this
    simpa using this.symm
  have kept : List.Forall₂ Kept j.tasks (j.tasks.map deadlineTask) := by
    rw [List.forall₂_map_right_iff, List.forall₂_same]
    exact fun t _ => deadlineTask_kept t
  have calm : List.Forall₂ Calm j.tasks (j.tasks.map deadlineTask) := by
    rw [List.forall₂_map_right_iff, List.forall₂_same]
    exact fun t _ => ⟨(deadlineTask_kept t).grows, fun live => absurd live (not_live_of_terminal (deadlineTask_over t)),
      (deadlineTask_kept t).held⟩
  have finished : ∀ t ∈ j.tasks.map deadlineTask, t.state.terminal = true := by
    intro t' ht'
    obtain ⟨t, -, rfl⟩ := List.mem_map.mp ht'
    exact deadlineTask_over t
  have uncanceled : j.canceled = false := by
    have := skipped.2
    simp only [Job.ended, Bool.or_eq_false_iff] at this
    exact this.1.1.1
  have failed : jobStatus (j.tasks.map deadlineTask) = .failed := by
    -- some task was unfinished, or the status would be final
    have notComplete : jobStatus j.tasks ≠ .complete := by
      have status := ok.status
      rw [uncanceled, if_neg Bool.false_ne_true] at status
      intro complete
      simp [Job.occupies, status, complete] at occupies
    rw [Ne, jobStatus_complete_iff] at notComplete
    simp only [not_forall] at notComplete
    obtain ⟨t, ht, undone⟩ := notComplete
    refine jobStatus_failed_iff.mpr ⟨deadlineTask t, List.mem_map_of_mem ht, ?_⟩
    unfold deadlineTask
    cases hs : t.state <;> simp_all [TaskState.done]
  refine ⟨⟨ok.tasks.calm calm, ?_, ?_, rfl⟩, ⟨?_, kept.imp fun _ _ => Kept.grows, ?_⟩, kept⟩
  · intro t ht pending
    have := finished t ht
    simp [pending, TaskState.terminal] at this
  · show JobStatus.failed = if j.canceled then JobStatus.canceled else jobStatus (j.tasks.map deadlineTask)
    rw [uncanceled, if_neg Bool.false_ne_true, failed]
  · simp only [Job.static, Job.graded, Lists.map_eq_of_forall₂ kept fun _ _ => Kept.static]
  · intro idle
    rw [occupies] at idle
    cases idle

theorem expireJob_spec {lib : Lib} {j : Job} (ok : JobOK lib j) (now : Time) : Keeps lib j (expireJob lib now j).1 := by
  unfold expireJob
  cases h : failDeadline lib now j with
  | some j' => exact failDeadline_spec ok h
  | none =>
    dsimp only
    split_ifs with unchanged
    · exact .refl ok
    · have kept : List.Forall₂ Kept j.tasks (j.tasks.map fun t => (requeue t now j.canceled).getD t) := by
        rw [List.forall₂_map_right_iff, List.forall₂_same]
        exact fun t _ => requeued_kept t now j.canceled
      have calm : List.Forall₂ Calm j.tasks (j.tasks.map fun t => (requeue t now j.canceled).getD t) := by
        rw [List.forall₂_map_right_iff, List.forall₂_same]
        exact fun t _ => ⟨(requeued_kept t now j.canceled).grows, requeued_live, (requeued_kept t now j.canceled).held⟩
      have static : Job.static { j with tasks := j.tasks.map fun t => (requeue t now j.canceled).getD t } =
        j.static := by
        simp only [Job.static, Lists.map_eq_of_forall₂ kept fun _ _ => Kept.static]
      obtain ⟨ok', evolves⟩ := refreshJob_evolves ok static calm (.inl rfl)
      exact ⟨ok', evolves, Lists.forall₂_trans kept (settle_kept (Kept.forall₂_held kept ok.tasks.held))
        fun _ _ _ => Kept.trans⟩

/-! ### Cancellation -/

theorem cancelTask_kept {t : Task} (held : Held t) : Kept t (cancelTask t) := by
  unfold cancelTask
  split_ifs with idle
  · refine .of_released rfl rfl rfl (by simp) ?_ (held.released ?_)
    · rcases idle with h | h <;> simp [h, TaskState.terminal]
    · rcases idle with h | h <;> simp [h]
  · exact .refl t

theorem cancelTask_live {t : Task} (h : Live (cancelTask t)) : Live t := by
  unfold cancelTask at h
  split_ifs at h
  · rcases h with h | h <;> cases h
  · exact h

theorem applyCancel_spec {lib : Lib} {j : Job} (ok : JobOK lib j) : Keeps lib j (applyCancel lib j) := by
  unfold applyCancel
  split_ifs with finished
  · exact .refl ok
  · have kept : List.Forall₂ Kept j.tasks (j.tasks.map cancelTask) := by
      rw [List.forall₂_map_right_iff, List.forall₂_same]
      exact fun t ht => cancelTask_kept (ok.tasks.held t ht)
    have calm : List.Forall₂ Calm j.tasks (j.tasks.map cancelTask) := by
      rw [List.forall₂_map_right_iff, List.forall₂_same]
      exact fun t ht => ⟨(cancelTask_kept (ok.tasks.held t ht)).grows, cancelTask_live,
        (cancelTask_kept (ok.tasks.held t ht)).held⟩
    have static : Job.static { j with canceled := true, tasks := j.tasks.map cancelTask } = j.static := by
      simp only [Job.static, Lists.map_eq_of_forall₂ kept fun _ _ => Kept.static]
    obtain ⟨ok', evolves⟩ := refreshJob_evolves ok static calm (.inr ⟨by simpa using finished, rfl⟩)
    exact ⟨ok', evolves, Lists.forall₂_trans kept (settle_kept (Kept.forall₂_held kept ok.tasks.held))
      fun _ _ _ => Kept.trans⟩

/-! ### One task of a job -/

section
variable {lib : Lib} {j : Job} {i : Nat} {t t' : Task}

theorem setTask_static (hi : j.tasks[i]? = some t) (static : t'.static = t.static) :
    (j.setTask i t').static = j.static := by
  have tasks : (j.tasks.set i t').map Task.static = j.tasks.map Task.static :=
    Lists.map_eq_of_forall₂ (Lists.forall₂_set (R := fun t t' : Task => t'.static = t.static) (fun _ => rfl) hi static)
      fun _ _ h => h
  simp only [Job.static, Job.setTask, tasks]

/-- A transition of one task that keeps all the others. -/
structure Replaces (lib : Lib) (j : Job) (i : Nat) (t' : Task) (j' : Job) : Prop where
  ok : JobOK lib j'
  evolves : Evolves j j'
  tasks : List.Forall₂ Kept (j.tasks.set i t') j'.tasks
  task : j'.tasks[i]? = some t'

theorem refresh_setTask (ok : JobOK lib j) (hi : j.tasks[i]? = some t) (calm : Calm t t')
    (fixed : t'.state ≠ .pending) :
    Replaces lib j i t' (refreshJob lib (j.setTask i t')) := by
  have all : List.Forall₂ Calm j.tasks (j.tasks.set i t') := Lists.forall₂_set Calm.refl hi calm
  obtain ⟨ok', evolves⟩ := refreshJob_evolves ok (setTask_static hi calm.grows.static) all (.inl rfl)
  have inside := (List.getElem?_eq_some_iff.mp hi).1
  have at_ : (j.tasks.set i t')[i]? = some t' := by rw [List.getElem?_set_self inside]
  obtain ⟨t'', ht'', settling⟩ := Lists.forall₂_getElem? (settle_settling (j.tasks.set i t')) at_
  rw [settling.eq fixed] at ht''
  exact ⟨ok', evolves, settle_kept (ok.tasks.calm all).held, ht''⟩

theorem leaseTask_calm (ready : t.state = .ready) {workerID : String} (worker : workerID ≠ "") (now : Time) :
    Calm t (leaseTask t attempt workerID now) :=
  ⟨leaseTask_grows ready attempt workerID now, fun _ => .inl ready, fun _ => ⟨fun _ => rfl, fun _ => worker⟩⟩

theorem applyCommit_calm {result : Plan.StepResult} {fail : String}
    (h : applyCommit t attempt result fail = .ok t') : Calm t t' := by
  obtain ⟨-, -, -, -, -, worker, -, state⟩ := applyCommit_ok h
  have finished : t'.state.terminal = true := by
    rcases state with ⟨-, hs⟩ | ⟨-, hs⟩ <;> simp [hs, TaskState.terminal]
  refine ⟨applyCommit_grows h, fun live => absurd live (not_live_of_terminal finished), fun _ => ?_⟩
  rcases state with ⟨-, hs⟩ | ⟨-, hs⟩ <;> simp [Held, worker, hs]

/-! ### Changes that settle nothing -/

/-- A change under which no dependency is done and no task pending that was not before. -/
structure Still (t t' : Task) : Prop where
  static : t'.static = t.static
  pending : t'.state = .pending → t.state = .pending
  done : t'.state.done = true → t.state.done = true

theorem Settled.still (settled : Settled ts) (h : List.Forall₂ Still ts ts') : Settled ts' := by
  intro u' hu' pending
  obtain ⟨u, hu, still⟩ := Lists.forall₂_mem_right h hu'
  obtain ⟨operator, blocked⟩ := settled u hu (still.pending pending)
  refine ⟨(static_operator still.static).trans operator, ?_⟩
  by_contra ok
  rw [Bool.not_eq_false] at ok
  refine absurd blocked (Bool.not_eq_false _ ▸ List.all_eq_true.mpr fun d hd => ?_)
  have done := List.all_eq_true.mp ok d (static_dependsOn still.static ▸ hd)
  rcases stateByPlan_rel (fun h => static_planID h.static) h d with ⟨-, none_⟩ | ⟨v, v', still, -, -, some_, some_'⟩
  · rw [none_] at done; exact absurd done (by simp)
  · rw [some_'] at done
    rw [some_]
    exact still.done done

theorem jobDecision_unfinished (h : j.canceled = true ∨ j.status ≠ .complete) :
    jobDecision lib j =
      { blockers := [{ code := Validate.codeStepFailed, subject := "job:" ++ j.status.text }] } := by
  unfold jobDecision
  rw [if_pos h]

theorem JobOK.unfinished (ok : JobOK lib j) (ht : t ∈ j.tasks) (live : Live t) :
    j.canceled = true ∨ j.status ≠ .complete := by
  cases hc : j.canceled with
  | true => exact .inl rfl
  | false =>
    refine .inr fun complete => ?_
    have status := ok.status
    rw [hc, if_neg Bool.false_ne_true, complete] at status
    have done := jobStatus_complete_iff.mp status.symm t ht
    rcases live with h | h <;> simp [h, TaskState.done] at done

theorem heartbeat_spec (ok : JobOK lib j) (hi : j.tasks[i]? = some t) {workerID : String}
    (h : applyHeartbeat t attempt workerID now = .ok t') : Keeps lib j (j.setTask i t') := by
  have kept := applyHeartbeat_kept h
  obtain ⟨leased, -, rfl⟩ := applyHeartbeat_ok h
  have calm : List.Forall₂ Calm j.tasks (j.tasks.set i { t with leaseUntil := now.add leaseTTL }) :=
    Lists.forall₂_set Calm.refl hi ⟨kept.grows, id, kept.held⟩
  have still : List.Forall₂ Still j.tasks (j.tasks.set i { t with leaseUntil := now.add leaseTTL }) :=
    Lists.forall₂_set (fun _ => ⟨rfl, id, id⟩) hi ⟨rfl, id, id⟩
  have status : jobStatus (j.tasks.set i { t with leaseUntil := now.add leaseTTL }) = jobStatus j.tasks :=
    jobStatus_eq_of_states (Lists.map_eq_of_forall₂
      (Lists.forall₂_set (R := fun t t' : Task => t'.state = t.state) (fun _ => rfl) hi rfl) fun _ _ h => h)
  have unfinished := ok.unfinished (List.mem_of_getElem? hi) (.inr leased)
  have decision : jobDecision lib (j.setTask i { t with leaseUntil := now.add leaseTTL }) = jobDecision lib j :=
    (@jobDecision_unfinished lib (j.setTask i _) unfinished).trans (jobDecision_unfinished unfinished).symm
  have validated := congrArg Job.validated ok.graded
  have blockers := congrArg Job.blockers ok.graded
  refine ⟨⟨ok.tasks.calm calm, ok.settled.still still, ?_, ?_⟩, ⟨setTask_static hi rfl, ?_, fun _ => rfl⟩, ?_⟩
  · show j.status = if j.canceled then JobStatus.canceled else jobStatus (j.tasks.set i _)
    rw [status]
    exact ok.status
  · unfold Job.graded
    rw [decision]
    simp only [Job.graded] at validated blockers
    simp only [Job.setTask, validated, blockers]
  · exact calm.imp fun _ _ => Calm.grows
  · exact Lists.forall₂_set Kept.refl hi kept

theorem leaseJob_spec (ok : JobOK lib j) (hi : j.tasks[i]? = some t) (ready : t.state = .ready) {w : Worker}
    (worker : w.blank = false) (now : Time) (attempt : ID) :
    Replaces lib j i (leaseTask t attempt.text w.id now) (Board.leaseJob lib j i t w now attempt) := by
  have nonempty : w.id ≠ "" := by
    intro empty
    rw [Worker.blank, empty] at worker
    exact absurd worker (by decide)
  exact refresh_setTask ok hi (leaseTask_calm ready nonempty now) (by simp [leaseTask])

theorem commit_spec (ok : JobOK lib j) (hi : j.tasks[i]? = some t) {result : Plan.StepResult}
    {fail : String} (h : applyCommit t attempt result fail = .ok t') :
    Replaces lib j i t' (refreshJob lib (j.setTask i t')) := by
  obtain ⟨-, -, -, -, -, -, -, state⟩ := applyCommit_ok h
  refine refresh_setTask ok hi (applyCommit_calm h) ?_
  rcases state with ⟨-, hs⟩ | ⟨-, hs⟩ <;> simp [hs]

theorem jobStatus_leased (ok : JobOK lib j) (hi : j.tasks[i]? = some t) (ready : t.state = .ready)
    (w : Worker) (now : Time)
    (attempt : ID) (uncanceled : j.canceled = false) :
    jobStatus (j.tasks.set i (leaseTask t attempt.text w.id now)) = j.status := by
  have inside := (List.getElem?_eq_some_iff.mp hi).1
  have leased : leaseTask t attempt.text w.id now ∈ j.tasks.set i (leaseTask t attempt.text w.id now) :=
    List.mem_of_getElem? (List.getElem?_set_self inside)
  rw [ok.status, uncanceled, if_neg Bool.false_ne_true, jobStatus_of_live leased (.inr rfl),
    jobStatus_of_live (List.mem_of_getElem? hi) (.inl ready)]
  have failed : (∃ u ∈ j.tasks.set i (leaseTask t attempt.text w.id now), u.state = .failed) ↔
      ∃ u ∈ j.tasks, u.state = .failed := by
    have same : List.Forall₂ (fun u u' : Task => u'.state = .failed ↔ u.state = .failed) j.tasks
        (j.tasks.set i (leaseTask t attempt.text w.id now)) :=
      Lists.forall₂_set (R := fun u u' : Task => u'.state = .failed ↔ u.state = .failed) (fun _ => Iff.rfl) hi
        (by simp [leaseTask, ready])
    constructor
    · rintro ⟨u', hu', hs⟩
      obtain ⟨u, hu, iff⟩ := Lists.forall₂_mem_right same hu'
      exact ⟨u, hu, iff.mp hs⟩
    · rintro ⟨u, hu, hs⟩
      obtain ⟨u', hu', iff⟩ := Lists.forall₂_mem_left same hu
      exact ⟨u', hu', iff.mpr hs⟩
  simp only [failed]

/-- A lease leaves the rest of the job as it is, so that only the status needs to be recomputed. -/
theorem leaseJob_eq (ok : JobOK lib j) (hi : j.tasks[i]? = some t) (ready : t.state = .ready) (w : Worker) (now : Time)
    (attempt : ID) (uncanceled : j.canceled = false) :
    Board.leaseJob lib j i t w now attempt = (j.setTask i (leaseTask t attempt.text w.id now)).restated := by
  have still : List.Forall₂ Still j.tasks (j.tasks.set i (leaseTask t attempt.text w.id now)) :=
    Lists.forall₂_set (fun _ => ⟨rfl, id, id⟩) hi
      ⟨rfl, by simp [leaseTask], by simp [leaseTask, TaskState.done]⟩
  have settled := settle_of_settled (ok.settled.still still)
  have status := jobStatus_leased ok hi ready w now attempt uncanceled
  have unfinished := ok.unfinished (List.mem_of_getElem? hi) (.inl ready)
  have validated := congrArg Job.validated ok.graded
  have blockers := congrArg Job.blockers ok.graded
  simp only [Job.graded, jobDecision_unfinished unfinished] at validated blockers
  have decision := @jobDecision_unfinished lib
    { j.setTask i (leaseTask t attempt.text w.id now) with status := j.status } unfinished
  unfold Board.leaseJob refreshJob Job.graded Job.restated
  simp only [Job.setTask, settled, uncanceled, Bool.false_eq_true, if_false, status] at decision ⊢
  rw [decision]
  simp only [validated, blockers]

end

end Aquila.Jobs

import Mathlib.Data.List.Forall2
import Mathlib.Logic.Relation
import Aquila.Jobs.Task

/-! What the operations keep of a task. -/

namespace Aquila.Jobs
variable {t t' : Task} {now : Time} {attempt : String}

/-! ### What is kept -/

/-- What `Create` fixes of a task. -/
def Task.static (t : Task) : Task :=
  { id := t.id, jobID := t.jobID, planID := t.planID, kind := t.kind, operator := t.operator, required := t.required
    dependsOn := t.dependsOn, n := t.n }

theorem static_eq (h : t'.static = t.static) :
    t'.id = t.id ∧ t'.jobID = t.jobID ∧ t'.planID = t.planID ∧ t'.kind = t.kind ∧ t'.operator = t.operator ∧
      t'.required = t.required ∧ t'.dependsOn = t.dependsOn ∧ t'.n = t.n := by
  simpa [Task.static] using h

theorem static_id (h : t'.static = t.static) : t'.id = t.id := (static_eq h).1
theorem static_jobID (h : t'.static = t.static) : t'.jobID = t.jobID := (static_eq h).2.1
theorem static_planID (h : t'.static = t.static) : t'.planID = t.planID := (static_eq h).2.2.1
theorem static_operator (h : t'.static = t.static) : t'.operator = t.operator :=
  (static_eq h).2.2.2.2.1
theorem static_dependsOn (h : t'.static = t.static) : t'.dependsOn = t.dependsOn :=
  (static_eq h).2.2.2.2.2.2.1

/-- A task has a worker exactly while it is leased. -/
def Held (t : Task) : Prop := t.workerID ≠ "" ↔ t.state = .leased

/-- Every operation: the description stays, and a task that is over never changes. -/
structure Grows (t t' : Task) : Prop where
  static : t'.static = t.static
  terminal : t.state.terminal = true → t' = t

/-- Every operation but leasing and committing the task: it gets no lease and no result. -/
structure Kept (t t' : Task) : Prop where
  static : t'.static = t.static
  fence : t'.fence = t.fence
  result : t'.result = t.result
  leased : t'.state = .leased → t.state = .leased ∧ t'.attemptID = t.attemptID ∧ t'.workerID = t.workerID
  terminal : t.state.terminal = true → t' = t
  held : Held t → Held t'

theorem Grows.refl (t : Task) : Grows t t := ⟨rfl, fun _ => rfl⟩

theorem Grows.trans {t'' : Task} (h : Grows t t') (h' : Grows t' t'') : Grows t t'' := by
  refine ⟨h'.static.trans h.static, fun terminal => ?_⟩
  have same := h.terminal terminal
  subst same
  exact h'.terminal terminal

theorem Kept.refl (t : Task) : Kept t t := ⟨rfl, rfl, rfl, fun h => ⟨h, rfl, rfl⟩, fun _ => rfl, id⟩

theorem Kept.trans {t'' : Task} (h : Kept t t') (h' : Kept t' t'') : Kept t t'' := by
  refine ⟨h'.static.trans h.static, h'.fence.trans h.fence, h'.result.trans h.result, fun leased => ?_,
    fun terminal => ?_, h'.held ∘ h.held⟩
  · obtain ⟨leased', attempt', worker'⟩ := h'.leased leased
    obtain ⟨leased, attempt, worker⟩ := h.leased leased'
    exact ⟨leased, attempt'.trans attempt, worker'.trans worker⟩
  · have same := h.terminal terminal
    subst same
    exact h'.terminal terminal

theorem Kept.grows (h : Kept t t') : Grows t t' := ⟨h.static, h.terminal⟩

theorem Kept.of_released (static : t'.static = t.static) (fence : t'.fence = t.fence)
    (result : t'.result = t.result) (unleased : t'.state ≠ .leased) (live : t.state.terminal = false)
    (released : t'.workerID = "") : Kept t t' := by
  refine ⟨static, fence, result, fun h => absurd h unleased, fun h => ?_, fun _ => ?_⟩
  · rw [live] at h; exact absurd h Bool.false_ne_true
  · simp [Held, released, unleased]

theorem Held.released (held : Held t) (h : t.state ≠ .leased) : t.workerID = "" := by
  by_contra worker
  exact h (held.mp worker)

/-! ### Each operation on a task -/

theorem settleTask_kept {states : String → Option TaskState} (held : Held t) : Kept t (settleTask states t) := by
  unfold settleTask
  split_ifs with skip ready
  · exact .of_released rfl rfl rfl (by simp) (by simp [skip.2, TaskState.terminal])
      (held.released (by simp [skip.2]))
  · exact .of_released rfl rfl rfl (by simp) (by simp [ready.1, TaskState.terminal])
      (held.released (by simp [ready.1]))
  · exact .refl t

theorem requeue_kept {canceled : Bool} (h : requeue t now canceled = some t') : Kept t t' := by
  unfold requeue at h
  split_ifs at h with unleased current dropped
  · obtain rfl := Option.some.inj h
    exact .of_released rfl rfl rfl (by simp) (by simp_all [TaskState.terminal]) rfl
  · obtain rfl := Option.some.inj h
    exact .of_released rfl rfl rfl (by simp) (by simp_all [TaskState.terminal]) rfl

theorem applyHeartbeat_ok {workerID : String}
    (h : applyHeartbeat t attempt workerID now = .ok t') :
    t.state = .leased ∧ t.attemptID = attempt ∧ t' = { t with leaseUntil := now.add leaseTTL } := by
  unfold applyHeartbeat at h
  split_ifs at h with unleased stale
  simp only [not_or, ne_eq, not_not] at unleased stale
  exact ⟨unleased, stale.1, (Except.ok.inj h).symm⟩

theorem applyHeartbeat_kept {workerID : String}
    (h : applyHeartbeat t attempt workerID now = .ok t') : Kept t t' := by
  obtain ⟨leased, -, rfl⟩ := applyHeartbeat_ok h
  exact ⟨rfl, rfl, rfl, fun h => ⟨h, rfl, rfl⟩, by simp [leased, TaskState.terminal], id⟩

theorem applyCommit_ok {result : Plan.StepResult} {fail : String}
    (h : applyCommit t attempt result fail = .ok t') :
    t.state = .leased ∧ t.attemptID = attempt ∧ t'.static = t.static ∧ t'.fence = t.fence ∧ t'.result = result ∧
      t'.workerID = "" ∧ t'.attemptID = t.attemptID ∧
      (fail ≠ "" ∧ t'.state = .failed ∨ fail = "" ∧ t'.state = .succeeded) := by
  unfold applyCommit at h
  split_ifs at h with unleased stale failed verdict
  · obtain rfl := Except.ok.inj h
    exact ⟨not_not.mp unleased, not_not.mp stale, rfl, rfl, rfl, rfl, rfl, .inl ⟨failed, rfl⟩⟩
  · obtain rfl := Except.ok.inj h
    exact ⟨not_not.mp unleased, not_not.mp stale, rfl, rfl, rfl, rfl, rfl, .inr ⟨not_not.mp failed, rfl⟩⟩

theorem applyCommit_grows {result : Plan.StepResult} {fail : String}
    (h : applyCommit t attempt result fail = .ok t') : Grows t t' := by
  obtain ⟨leased, -, static, -⟩ := applyCommit_ok h
  exact ⟨static, by simp [leased, TaskState.terminal]⟩

theorem leaseTask_grows (ready : t.state = .ready) (attempt workerID : String) (now : Time) :
    Grows t (leaseTask t attempt workerID now) :=
  ⟨rfl, by simp [ready, TaskState.terminal]⟩

/-! ### Dependencies -/

theorem stateByPlan_rel {R : Task → Task → Prop} (planID : ∀ {t t'}, R t t' → t'.planID = t.planID)
    {ts ts' : List Task} (h : List.Forall₂ R ts ts') (d : String) :
    (stateByPlan ts d = none ∧ stateByPlan ts' d = none) ∨
      ∃ t t', R t t' ∧ t ∈ ts ∧ t' ∈ ts' ∧ stateByPlan ts d = some t.state ∧ stateByPlan ts' d = some t'.state := by
  have found : ∀ {us us' : List Task}, List.Forall₂ R us us' →
      (us.find? (·.planID = d) = none ∧ us'.find? (·.planID = d) = none) ∨
        ∃ t t', R t t' ∧ us.find? (·.planID = d) = some t ∧ us'.find? (·.planID = d) = some t' := by
    intro us us' h
    induction h with
    | nil => exact .inl ⟨rfl, rfl⟩
    | @cons a b l l' hab _ ih =>
      by_cases hd : a.planID = d
      · exact .inr ⟨a, b, hab, by simp [hd], by simp [planID hab, hd]⟩
      · simpa [hd, planID hab] using ih
  rcases found (List.forall₂_reverse_iff.mpr h) with ⟨none_, none_'⟩ | ⟨t, t', hr, some_, some_'⟩
  · exact .inl ⟨by simp [stateByPlan, none_], by simp [stateByPlan, none_']⟩
  · exact .inr ⟨t, t', hr, List.mem_reverse.mp (List.mem_of_find?_eq_some some_),
      List.mem_reverse.mp (List.mem_of_find?_eq_some
        some_'), by simp [stateByPlan, some_], by simp [stateByPlan, some_']⟩

theorem depsOK_mono {ts ts' : List Task} (h : List.Forall₂ Grows ts ts')
    (deps : t'.dependsOn = t.dependsOn) (ok : depsOK t (stateByPlan ts) = true) :
    depsOK t' (stateByPlan ts') = true := by
  unfold depsOK at ok ⊢
  rw [deps]
  refine List.all_eq_true.mpr fun d hd => ?_
  have done := List.all_eq_true.mp ok d hd
  rcases stateByPlan_rel (fun h => static_planID h.static) h d with ⟨none_, -⟩ | ⟨u, u', grows, -, -, some_, some_'⟩
  · rw [none_] at done; exact absurd done (by simp)
  · rw [some_] at done
    rw [some_']
    have terminal : u.state.terminal = true := by
      simp only [Option.any_some, TaskState.done, TaskState.terminal] at done ⊢
      cases hs : u.state <;> simp_all
    rw [grows.terminal terminal]
    exact done

end Aquila.Jobs

import Aquila.Theorems.Jobs.Expiry

/-! Leases are stable: a lease ends with its own commit, with its expiry or with the deadline of its job, and only
    its own heartbeat prolongs it. -/

namespace Aquila.Jobs

/-- The calls that may end the lease of a task. -/
inductive Ends (j : Job) (t : Task) : Op → Resp → Prop
  | committed {taskID attemptID : String} {result : Plan.StepResult} {fail : String} {u : Task} :
      normalizeIDs taskID attemptID = .ok (t.id, t.attemptID) → u.jobID = t.jobID → u.id = t.id →
      Ends j t (.commit taskID attemptID result fail) (.task u)
  | expired {op : Op} {resp : Resp} {now : Time} : Board.expiryOf op = some now → t.leaseUntil < now → Ends j t op resp
  | overdue {op : Op} {resp : Resp} {now : Time} : Board.expiryOf op = some now → j.effectiveDeadline < now →
    Ends j t op resp

/-- The calls that prolong the lease of a task. -/
inductive Renews (t : Task) : Op → Resp → Prop
  | renewed {taskID attemptID : String} {now : Time} : normalizeIDs taskID attemptID = .ok (t.id, t.attemptID) →
      Renews t (.heartbeat taskID attemptID t.workerID now) .ok

/-- What one call does to a leased task. -/
inductive Stays (op : Op) (resp : Resp) (j : Job) (t : Task) : Task → Prop
  | same : Stays op resp j t t
  | renewed {until_ : Time} : Renews t op resp → Stays op resp j t { t with leaseUntil := until_ }
  | ended {t' : Task} : Ends j t op resp → Stays op resp j t t'

/-! ### One job -/

section
variable {lib : Lib} {op : Op} {resp : Resp} {j j' : Job}

/-- Every leased task of a job stays, or the call is a reason that it does not. -/
def Job.Stay (op : Op) (resp : Resp) (j j' : Job) : Prop :=
  List.Forall₂ (fun t t' => t.state = .leased → Stays op resp j t t') j.tasks j'.tasks

theorem Job.Stay.refl : j.Stay op resp j := List.forall₂_same.mpr fun _ _ _ => .same

theorem Job.Stay.fixed {j₁ : Job} (stay : j.Stay op resp j₁)
    (fixed : List.Forall₂ (fun t t' : Task => t.state = .leased → t' = t) j₁.tasks j'.tasks) : j.Stay op resp j' := by
  refine Lists.forall₂_trans stay fixed fun t t' t'' stays same leased => ?_
  cases stays leased with
  | same => rw [same leased]; exact .same
  | renewed renews => rw [same leased]; exact .renewed renews
  | ended ends => exact .ended ends

theorem expireJob_stay {now : Time} (ok : JobOK lib j) (expiry : Board.expiryOf op = some now) :
    j.Stay op resp (expireJob lib now j).1 := by
  refine (expireJob_passed lib now ok.settled).imp fun t t' passed leased => ?_
  cases passed leased with
  | kept => exact .same
  | requeued expired => exact .ended (.expired expiry expired.2.2)
  | failed overdue =>
    obtain ⟨-, d, due, late⟩ := overdue
    exact .ended (.overdue expiry (due_eq due ▸ late))

theorem applyCancel_stay : j.Stay op resp (applyCancel lib j) := by
  unfold applyCancel
  split_ifs
  · exact .refl
  · refine Lists.forall₂_trans (R := fun t t' : Task => t.state = .leased → t' = t)
      (List.forall₂_map_right_iff.mpr (List.forall₂_same.mpr fun t _ leased => ?_)) (settle_settling _)
      fun t t' t'' same settling leased => ?_
    · simp [cancelTask, leased]
    · obtain rfl := same leased
      rw [settling.eq (by simp [leased])]
      exact .same

theorem refresh_setTask_leased {P : Task → Task → Prop} (refl : ∀ t, P t t) {i : Nat} {t t' : Task}
    (hi : j.tasks[i]? = some t)
    (fixed : t'.state ≠ .pending) (h : t.state = .leased → P t t') :
    List.Forall₂ (fun u u' => u.state = .leased → P u u') j.tasks (refreshJob lib (j.setTask i t')).tasks := by
  have set_ : List.Forall₂ (fun u u' : Task => u.state = .leased → P u u' ∧ u'.state ≠ .pending) j.tasks
    (j.tasks.set i t') :=
    Lists.forall₂_set (fun u leased => ⟨refl u, by simp [leased]⟩) hi fun leased => ⟨h leased, fixed⟩
  refine Lists.forall₂_trans set_ (settle_settling _) fun u u' u'' changed settling leased => ?_
  rw [settling.eq (changed leased).2]
  exact (changed leased).1

theorem applyHeartbeat_worker {t t' : Task} {attempt workerID : String} {now : Time}
    (h : applyHeartbeat t attempt workerID now = .ok t') : t.workerID = workerID := by
  unfold applyHeartbeat at h
  split_ifs at h with unleased stale
  exact not_not.mp (not_or.mp stale).2

end

/-! ### One call -/

namespace Board
variable {lib : Lib} {q : Quota} {sees : Job → Bool} {tr : Trace} {js js' : List Job} {op : Op}
  {resp : Resp} {now : Time}

theorem expire_stay (ok : ∀ j ∈ js, JobOK lib j) (expiry : expiryOf op = some now) :
    List.Forall₂ (fun j j' : Job => j'.id = j.id ∧ j.Stay op resp j') js (expire lib sees now js) := by
  refine List.forall₂_map_right_iff.mpr (List.forall₂_same.mpr fun j hj => ?_)
  split_ifs
  · exact ⟨(expireJob_spec (ok j hj) now).evolves.id, expireJob_stay (ok j hj) expiry⟩
  · exact ⟨rfl, .refl⟩

theorem update_stay (inv : Inv lib tr js) {j j' : Job} (hj : j ∈ js) (id : j'.id = j.id) (stay : j.Stay op resp j') :
    List.Forall₂ (fun j j' : Job => j'.id = j.id ∧ j.Stay op resp j') js (Keyed.update Job.id js j') :=
  Keyed.forall₂_update inv.ids hj id ⟨id, stay⟩ fun _ _ _ => ⟨rfl, .refl⟩

/-- In every call the leased tasks of the stored jobs stay, or the call is a reason that they do not. -/
theorem Step.stay (inv : Inv lib tr js) (step : Step lib q sees js op resp js') :
    ∃ old new, js' = old ++ new ∧ List.Forall₂ (fun j j' : Job => j'.id = j.id ∧ j.Stay op resp j') js old := by
  have same : List.Forall₂ (fun j j' : Job => j'.id = j.id ∧ j.Stay op resp j') js js :=
    List.forall₂_same.mpr fun _ _ => ⟨rfl, .refl⟩
  have expired : ∀ now, expiryOf op = some now →
      List.Forall₂ (fun j j' : Job => j'.id = j.id ∧ j.Stay op resp j') js (Board.expire lib sees now js) :=
    fun _ => expire_stay inv.ok
  cases step with
  | refused => exact ⟨js, [], js.append_nil.symm, same⟩
  | expiredOnly _ _ now expiry => exact ⟨_, [], (List.append_nil _).symm, expired now expiry⟩
  | got => exact ⟨js, [], js.append_nil.symm, same⟩
  | listed => exact ⟨js, [], js.append_nil.symm, same⟩
  | requeued now => exact ⟨_, [], (List.append_nil _).symm, expired now rfl⟩
  | created opts id clock => exact ⟨_, _, rfl, expired clock.expire rfl⟩
  | leased w now attempt j i t leasable =>
    refine ⟨_, [], (List.append_nil _).symm, ?_⟩
    have inv' : Inv lib tr (Board.expire lib sees now js) := inv.expire now
    -- the task that is leased was ready, so that the lease changes no leased task
    have lease : List.Forall₂ (fun u u' : Task => u.state = .leased →
      u' = u) j.tasks (leaseJob lib j i t w now attempt).tasks :=
      refresh_setTask_leased (P := fun u u' => u' = u) (fun _ => rfl) leasable.task (by simp [leaseTask])
        (by simp [leasable.ready])
    have update : List.Forall₂ (fun j j' : Job => j'.id = j.id ∧
        List.Forall₂ (fun u u' : Task => u.state = .leased → u' = u) j.tasks j'.tasks) (Board.expire lib sees now js)
        (Keyed.update Job.id (Board.expire lib sees now js) (leaseJob lib j i t w now attempt)) :=
      Keyed.forall₂_update inv'.ids leasable.mem (leasable.replaces inv attempt).evolves.id
        ⟨(leasable.replaces inv attempt).evolves.id, lease⟩ fun _ _ _ => ⟨rfl, List.forall₂_same.mpr fun _ _ _ => rfl⟩
    exact Lists.forall₂_trans (expired now rfl) update fun _ _ _ stay kept => ⟨kept.1.trans stay.1, stay.2.fixed kept.2⟩
  | renewed taskID attemptID workerID now tid aid j i t t' ids found renew =>
    refine ⟨_, [], (List.append_nil _).symm, update_stay inv found.mem rfl ?_⟩
    refine Lists.forall₂_set (fun _ _ => .same) found.task fun leased => ?_
    obtain ⟨-, attempt, rfl⟩ := applyHeartbeat_ok renew
    obtain rfl := applyHeartbeat_worker renew
    exact .renewed (.renewed (by rw [found.id, attempt]; exact ids))
  | committed taskID attemptID result fail tid aid j i t t' ids found commit =>
    have spec := commit_spec (inv.ok j found.mem) found.task commit
    obtain ⟨-, attempt, static, -⟩ := applyCommit_ok commit
    refine ⟨_, [], (List.append_nil _).symm, update_stay inv found.mem spec.evolves.id ?_⟩
    refine refresh_setTask_leased (fun _ => .same) found.task ?_ fun leased => .ended (.committed ?_ ?_ ?_)
    · obtain ⟨-, -, -, -, -, -, -, ⟨-, state⟩ | ⟨-, state⟩⟩ := applyCommit_ok commit <;> simp [state]
    · rw [found.id, attempt]; exact ids
    · rw [spec.task]; exact static_jobID static
    · rw [spec.task]; exact static_id static
  | canceled raw id j _ hj _ =>
    exact ⟨_, [], (List.append_nil _).symm,
      update_stay inv hj (applyCancel_spec (inv.ok j hj)).evolves.id applyCancel_stay⟩

end Board

/-- After any call a leased task is still leased as before, unless the call is its own heartbeat or commit, or makes
    a pass after the end of the lease or the deadline of the job. -/
theorem leases_stable {lib : Lib} {q : Quota} {k : StoreKind} {tr : Trace} {s s' : (k.machine lib q).State}
    {op : Op} {resp : Resp}
    (run : (k.machine lib q).Run FreshIDs tr s) (fresh : FreshIDs tr op resp)
    (step : (k.machine lib q).Step s op resp s')
    {j : Job} {i : Nat} {t : Task} (hj : j ∈ k.jobs lib q s) (hi : j.tasks[i]? = some t) (leased : t.state = .leased) :
    ∃ j' ∈ k.jobs lib q s', ∃ t', (∀ x ∈ k.jobs lib q s', x.id = j.id ↔ x = j') ∧ j'.tasks[i]? = some t' ∧
    t'.id = t.id ∧
      (Ends j t op resp ∨
        t'.state = .leased ∧ t'.workerID = t.workerID ∧ t'.attemptID = t.attemptID ∧ t'.fence = t.fence ∧
          (t'.leaseUntil = t.leaseUntil ∨ Renews t op resp)) := by
  have inv := StoreKind.inv_of_run id run
  have inv' := StoreKind.inv_of_run id (run.snoc fresh step)
  have board := StoreKind.board_step id run fresh step
  obtain ⟨old, new, eq, stay⟩ := board.stay inv
  obtain ⟨j', hj', id_, stay⟩ := Lists.forall₂_mem_left stay hj
  obtain ⟨t', ht', stays⟩ := Lists.forall₂_getElem? stay hi
  have mem : j' ∈ k.jobs lib q s' := eq ▸ List.mem_append_left new hj'
  refine ⟨j', mem, t', fun x hx => ⟨fun same => ?_, fun same => same ▸ id_⟩, ht', ?_, ?_⟩
  · exact Keyed.eq_of_key inv'.ids hx mem (same.trans id_.symm)
  · rw [((inv'.ok j' mem).tasks.ids i t' ht').1, ((inv.ok j hj).tasks.ids i t hi).1, id_]
  · cases stays leased with
    | same => exact .inr ⟨leased, rfl, rfl, rfl, .inl rfl⟩
    | renewed renews => exact .inr ⟨leased, rfl, rfl, rfl, .inr renews⟩
    | ended ends => exact .inl ends

open Sample in
/-- A cancellation leaves the lease of the sample task in place. -/
theorem leases_stable_sample : ∃ j ∈ StoreKind.jobs Lib.plain {} .memory (play .memory [create, lease, cancel]).2,
    ∃ t ∈ j.tasks, t.state = .leased ∧ t.workerID = "w" := by
  have run := Sample.run .memory [create, lease] (by decide +kernel)
  have step := StoreKind.memory.call_step (play .memory [create, lease]).2 cancel
  obtain ⟨j, hj, t, hi, leased, worker⟩ : ∃ j ∈ StoreKind.jobs Lib.plain {} .memory (play .memory [create, lease]).2,
      ∃ t ∈ j.tasks[0]?, t.state = .leased ∧ t.workerID = "w" := by decide +kernel
  obtain ⟨j', hj', t', -, hi', -, ends | ⟨leased', worker', -⟩⟩ :=
    leases_stable run (by decide +kernel) step hj (Option.mem_def.mp hi) leased
  · cases ends with
    | expired expiry => cases expiry
    | overdue expiry => cases expiry
  · exact ⟨j', hj', t', List.mem_of_getElem? hi', leased', worker'.trans worker⟩

end Aquila.Jobs

import Aquila.Theorems.Jobs.Build

/-! What one call can do to the jobs of a board, and the invariant of its runs. -/

namespace Aquila.Jobs

/-- The task that a call leased or committed. -/
def Resp.touched : Resp → Option Task
  | .lease l => some l.task
  | .task t => some t
  | _ => none

namespace Board
variable {lib : Lib} {q : Quota} {sees : Job → Bool} {tr : Trace} {js js' : List Job} {op : Op}
    {resp : Resp} {j j' : Job}

/-- What one call can do to a task. A lease may come after the expiry of the last one in the same call. -/
inductive Moved (op : Op) (resp : Resp) : Task → Task → Prop
  | kept {t t' : Task} : Kept t t' → (∀ u, resp.touched = some u → u.jobID = t.jobID → u.id ≠ t.id) → Moved op resp t t'
  | leased {t u : Task} {w : Worker} {now : Time} {attempt : ID} {l : Lease} :
      op = .lease w now attempt → resp = .lease l → Kept t u → u.state = .ready →
      l.task = leaseTask u attempt.text w.id now → l.attempt = attempt.text → l.fence = int64 (u.fence + 1) →
      Moved op resp t (leaseTask u attempt.text w.id now)
  | committed {t t' : Task} {taskID attemptID aid : String} {result : Plan.StepResult} {fail : String} :
      op = .commit taskID attemptID result fail → resp = .task t' → normalizeIDs taskID attemptID = .ok (t.id, aid) →
      applyCommit t aid result fail = .ok t' → Moved op resp t t'

theorem Moved.grows {t t' : Task} (h : Moved op resp t t') : Grows t t' := by
  cases h with
  | kept kept _ => exact kept.grows
  | leased _ _ kept ready => exact kept.grows.trans (leaseTask_grows ready _ _ _)
  | committed _ _ _ commit => exact applyCommit_grows commit

/-- What one call can do to a job. -/
structure Advances (lib : Lib) (op : Op) (resp : Resp) (j j' : Job) : Prop where
  ok : JobOK lib j'
  evolves : Evolves j j'
  moved : List.Forall₂ (Moved op resp) j.tasks j'.tasks

/-- The jobs that a call adds to the jobs it leaves: none, or a new one that the checks of `Create` admit. -/
inductive Adds (lib : Lib) (q : Quota) (old : List Job) : Op → Resp → List Job → Prop
  | none {op : Op} {resp : Resp} : Adds lib q old op resp []
  | created {opts : CreateOpts} {id : ID} {clock : CreateClock} :
      validateCreate lib clock.validate opts = none →
      gatewayBusy lib old (buildJob lib opts id.text clock.build) = false →
      overActive old (buildJob lib opts id.text clock.build) q = false →
      Adds lib q old (.create opts id clock) (.job (buildJob lib opts id.text clock.build))
        [buildJob lib opts id.text clock.build]

/-- A job goes back to a `Create` of the trace. -/
def CreatedIn (lib : Lib) (tr : Trace) (j : Job) : Prop :=
  ∃ opts id clock, (Op.create opts id clock, Resp.job (buildJob lib opts id.text clock.build)) ∈ tr ∧
    validateCreate lib clock.validate opts = none ∧ j.static = (buildJob lib opts id.text clock.build).static

structure Inv (lib : Lib) (tr : Trace) (js : List Job) : Prop where
  ids : (js.map Job.id).Nodup
  ok : ∀ j ∈ js, JobOK lib j
  created : ∀ j ∈ js, CreatedIn lib tr j

/-! ### Identities -/

theorem CreatedIn.id (h : CreatedIn lib tr j) : ∃ id : ID, j.id = id.text ∧ id.text ∈ issued tr := by
  obtain ⟨opts, id, clock, mem, -, static⟩ := h
  refine ⟨id, (congrArg Job.id static :), ?_⟩
  exact List.mem_flatMap.mpr ⟨_, mem, by simp [drawn]⟩

theorem Inv.unused (inv : Inv lib tr js) {id : String} (fresh : id ∉ issued tr) : id ∉ js.map Job.id := by
  intro used
  obtain ⟨j, hj, rfl⟩ := List.mem_map.mp used
  obtain ⟨id', eq, issued⟩ := (inv.created j hj).id
  exact fresh (eq ▸ issued)

theorem Inv.index_eq (inv : Inv lib tr js) (hj : j ∈ js) {i i' : Nat} {t t' : Task} (hi : j.tasks[i]? = some t)
    (hi' : j.tasks[i']? = some t') (h : t.id = t'.id) : i = i' := by
  obtain ⟨id, hid, -⟩ := (inv.created j hj).id
  rw [((inv.ok j hj).tasks.ids i t hi).1, ((inv.ok j hj).tasks.ids i' t' hi').1, hid] at h
  exact (taskID_inj h).2

theorem Inv.jobID (inv : Inv lib tr js) (hj : j ∈ js) {t : Task} (ht : t ∈ j.tasks) : t.jobID = j.id := by
  obtain ⟨i, hi⟩ := List.mem_iff_getElem?.mp ht
  exact ((inv.ok j hj).tasks.ids i t hi).2

/-! ### One job -/

theorem Advances.of_keeps (h : Keeps lib j j')
    (untouched : ∀ u, resp.touched = some u → ∀ t ∈ j.tasks, u.jobID = t.jobID → u.id ≠ t.id) :
    Advances lib op resp j j' := by
  refine ⟨h.ok, h.evolves, Lists.forall₂_of_getElem? h.tasks.length_eq fun i t t' hi hi' => ?_⟩
  obtain ⟨u, hu, kept⟩ := Lists.forall₂_getElem? h.tasks hi
  obtain rfl := Option.some.inj (hi'.symm.trans hu)
  exact .kept kept fun u hu => untouched u hu t (List.mem_of_getElem? hi)

theorem Advances.of_replaces (inv : Inv lib tr js) (hj : j ∈ js) {i : Nat} {t t' : Task} (hi : j.tasks[i]? = some t)
    (h : Replaces lib j i t' j') (touched : resp.touched = some t') (moved : Moved op resp t t') :
    Advances lib op resp j j' := by
  refine ⟨h.ok, h.evolves, Lists.forall₂_of_getElem? h.evolves.tasks.length_eq fun k u u' hk hk' => ?_⟩
  by_cases same : k = i
  · subst same
    obtain rfl := Option.some.inj (hk.symm.trans hi)
    obtain rfl := Option.some.inj (hk'.symm.trans h.task)
    exact moved
  · have unset : (j.tasks.set i t')[k]? = some u := by rw [List.getElem?_set_ne (Ne.symm same), hk]
    obtain ⟨v, hv, kept⟩ := Lists.forall₂_getElem? h.tasks unset
    obtain rfl := Option.some.inj (hk'.symm.trans hv)
    refine .kept kept fun v hv _ eq => same (inv.index_eq hj hk hi ?_)
    obtain rfl := Option.some.inj (hv.symm.trans touched)
    exact eq.symm.trans (static_id moved.grows.static)

theorem Advances.after {jₑ : Job} (h : Keeps lib j jₑ) (adv : Advances lib op resp jₑ j')
    (lease : ∀ t, resp ≠ .task t) :
    Advances lib op resp j j' := by
  refine ⟨adv.ok, h.evolves.trans adv.evolves, Lists.forall₂_trans h.tasks adv.moved fun t u v kept moved => ?_⟩
  cases moved with
  | kept kept' untouched =>
    refine .kept (kept.trans kept') fun x hx => ?_
    rw [← static_jobID kept.static, ← static_id kept.static]
    exact untouched x hx
  | leased hop hresp kept' ready task attempt fence =>
      exact .leased hop hresp (kept.trans kept') ready task attempt fence
  | committed _ hresp _ _ => exact absurd hresp (lease _)

/-! ### The jobs -/

theorem expire_keeps (ok : ∀ j ∈ js, JobOK lib j) (now : Time) :
    List.Forall₂ (Keeps lib) js (expire lib sees now js) := by
  rw [expire, List.forall₂_map_right_iff, List.forall₂_same]
  intro j hj
  split_ifs
  · exact expireJob_spec (ok j hj) now
  · exact .refl (ok j hj)

theorem CreatedIn.evolve (h : CreatedIn lib tr j) (evolves : Evolves j j') : CreatedIn lib tr j' := by
  obtain ⟨opts, id, clock, mem, valid, static⟩ := h
  exact ⟨opts, id, clock, mem, valid, evolves.static.trans static⟩

theorem Inv.evolve (inv : Inv lib tr js) (h : List.Forall₂ (fun j j' => JobOK lib j' ∧ Evolves j j') js js') :
    Inv lib tr js' := by
  refine ⟨?_, fun j' hj' => ?_, fun j' hj' => ?_⟩
  · rw [Lists.map_eq_of_forall₂ h fun _ _ h => h.2.id]
    exact inv.ids
  · obtain ⟨j, -, ok, -⟩ := Lists.forall₂_mem_right h hj'
    exact ok
  · obtain ⟨j, hj, -, evolves⟩ := Lists.forall₂_mem_right h hj'
    exact (inv.created j hj).evolve evolves

theorem Inv.expire (inv : Inv lib tr js) (now : Time) : Inv lib tr (expire lib sees now js) :=
  inv.evolve ((expire_keeps inv.ok now).imp fun _ _ h => ⟨h.ok, h.evolves⟩)

theorem update_keeps (inv : Inv lib tr js) (hj : j ∈ js) (h : Keeps lib j j') (untouched : resp.touched = none) :
    List.Forall₂ (Advances lib op resp) js (Keyed.update Job.id js j') := by
  have none_ : ∀ {x : Job} u, resp.touched = some u → ∀ t ∈ x.tasks, u.jobID = t.jobID → u.id ≠ t.id := fun u hu => by
    rw [untouched] at hu
    cases hu
  exact Keyed.forall₂_update inv.ids hj h.evolves.id (.of_keeps h none_) fun x hx _ =>
    .of_keeps (.refl (inv.ok x hx)) none_

theorem update_replaces (inv : Inv lib tr js) (hj : j ∈ js) {i : Nat} {t t' : Task} (hi : j.tasks[i]? = some t)
    (h : Replaces lib j i t' j') (touched : resp.touched = some t') (moved : Moved op resp t t') :
    List.Forall₂ (Advances lib op resp) js (Keyed.update Job.id js j') := by
  refine Keyed.forall₂_update inv.ids hj h.evolves.id (.of_replaces inv hj hi h touched moved) fun x hx other => ?_
  refine .of_keeps (.refl (inv.ok x hx)) fun u hu v hv eq => ?_
  obtain rfl := Option.some.inj (hu.symm.trans touched)
  -- the tasks of the other jobs belong to other jobs
  rw [static_jobID moved.grows.static, inv.jobID hj (List.mem_of_getElem? hi), inv.jobID hx hv] at eq
  exact absurd eq.symm other

section
variable {w : Worker} {now : Time} {i : Nat} {t : Task}

theorem Leasable.replaces (leasable : Leasable q sees (expire lib sees now js) w j i t) (inv : Inv lib tr js)
    (attempt : ID) :
    Replaces lib j i (leaseTask t attempt.text w.id now) (leaseJob lib j i t w now attempt) :=
  leaseJob_spec ((inv.expire now).ok j leasable.mem) leasable.task leasable.ready leasable.worker now attempt

theorem Leasable.leaseOf_task (leasable : Leasable q sees (expire lib sees now js) w j i t) (inv : Inv lib tr js)
    (attempt : ID) :
    (leaseOf (leaseJob lib j i t w now attempt) i (leaseTask t attempt.text w.id now) attempt.text).task =
      leaseTask t attempt.text w.id now := by
  simp [leaseOf, (leasable.replaces inv attempt).task]

end

/-- Every call advances the jobs and adds at most the job that it creates. -/
theorem Step.advances (inv : Inv lib tr js) (step : Step lib q sees js op resp js') :
    ∃ old new, js' = old ++ new ∧ List.Forall₂ (Advances lib op resp) js old ∧ Adds lib q old op resp new := by
  have expired : ∀ now, resp.touched = none →
    List.Forall₂ (Advances lib op resp) js (Board.expire lib sees now js) := by
    intro now untouched
    refine (expire_keeps inv.ok now).imp fun _ _ h => .of_keeps h fun u hu => ?_
    rw [untouched] at hu
    cases hu
  have same : resp.touched = none → List.Forall₂ (Advances lib op resp) js js := by
    intro untouched
    refine List.forall₂_same.mpr fun j hj => .of_keeps (.refl (inv.ok j hj)) fun u hu => ?_
    rw [untouched] at hu
    cases hu
  cases step with
  | refused => exact ⟨js, [], js.append_nil.symm, same rfl, .none⟩
  | expiredOnly _ _ now _ => exact ⟨_, [], (List.append_nil _).symm, expired now rfl, .none⟩
  | got => exact ⟨js, [], js.append_nil.symm, same rfl, .none⟩
  | listed => exact ⟨js, [], js.append_nil.symm, same rfl, .none⟩
  | requeued now => exact ⟨_, [], (List.append_nil _).symm, expired now rfl, .none⟩
  | created opts id clock valid free share => exact ⟨_, _, rfl, expired clock.expire rfl, .created valid free share⟩
  | leased w now attempt j i t leasable =>
    have task := leasable.leaseOf_task inv attempt
    have moved : List.Forall₂ (Advances lib (.lease w now attempt) (.lease (leaseOf (leaseJob lib j i t w now attempt) i
        (leaseTask t attempt.text w.id now) attempt.text))) (Board.expire lib sees now js) _ :=
      update_replaces (inv.expire now) leasable.mem leasable.task (leasable.replaces inv attempt) (congrArg some task)
        (.leased rfl rfl (.refl t) leasable.ready task rfl rfl)
    refine ⟨_, [], (List.append_nil _).symm, ?_, .none⟩
    exact Lists.forall₂_trans (expire_keeps inv.ok now) moved fun _ _ _ kept adv => adv.after kept (by simp)
  | renewed _ _ _ _ _ _ j i t t' _ found renew =>
    exact ⟨_, [], (List.append_nil _).symm,
      update_keeps inv found.mem (heartbeat_spec (inv.ok j found.mem) found.task renew) rfl, .none⟩
  | committed taskID attemptID result fail tid aid j i t t' ids found commit =>
    have spec := commit_spec (inv.ok j found.mem) found.task commit
    refine ⟨_, [], (List.append_nil _).symm,
      update_replaces inv found.mem found.task spec (by simp [Resp.touched, spec.task]) ?_, .none⟩
    rw [spec.task]
    exact .committed rfl rfl (by rw [found.id]; exact ids) commit
  | canceled raw id j _ hj _ =>
    exact ⟨_, [], (List.append_nil _).symm, update_keeps inv hj (applyCancel_spec (inv.ok j hj)) rfl, .none⟩

/-- What a lease returns: a stored job with the task, which has the attempt of the call and the next fence. -/
structure Leased (js js' : List Job) (op : Op) (l : Lease) : Prop where
  before : ∃ j ∈ js, ∃ t ∈ j.tasks, t.jobID = l.task.jobID ∧ t.id = l.task.id ∧ l.fence = int64 (t.fence + 1)
  stored : l.job ∈ js'
  task : l.task ∈ l.job.tasks
  state : l.task.state = .leased
  fence : l.task.fence = l.fence
  attempt : l.task.attemptID = l.attempt
  drawn : l.attempt ∈ drawn (op, .lease l)

theorem Step.leased_spec (inv : Inv lib tr js) {l : Lease} (step : Step lib q sees js op (.lease l) js') :
    Leased js js' op l := by
  cases step with
  | leased w now attempt j i t leasable =>
    have spec := leasable.replaces inv attempt
    have task := leasable.leaseOf_task inv attempt
    refine ⟨?_, Keyed.mem_update_self leasable.mem spec.evolves.id.symm, ?_, ?_, ?_, ?_, List.mem_singleton.mpr rfl⟩
    all_goals rw [task]
    · obtain ⟨j₀, hj₀, keeps⟩ := Lists.forall₂_mem_right (expire_keeps inv.ok now) leasable.mem
      obtain ⟨t₀, ht₀, kept⟩ := Lists.forall₂_mem_right keeps.tasks (List.mem_of_getElem? leasable.task)
      refine ⟨j₀, hj₀, t₀, ht₀, (static_jobID kept.static).symm, (static_id kept.static).symm, ?_⟩
      rw [← kept.fence]
      rfl
    · exact List.mem_of_getElem? spec.task
    · rfl
    · rfl
    · rfl

/-! ### Runs -/

theorem CreatedIn.append (h : CreatedIn lib tr j) (es : Trace) : CreatedIn lib (tr ++ es) j := by
  obtain ⟨opts, id, clock, mem, rest⟩ := h
  exact ⟨opts, id, clock, List.mem_append_left es mem, rest⟩

theorem Inv.empty : Inv lib [] [] := ⟨List.nodup_nil, by simp, by simp⟩

theorem Step.inv (inv : Inv lib tr js) (fresh : FreshIDs tr op resp) (step : Step lib q sees js op resp js') :
    Inv lib (tr ++ [(op, resp)]) js' := by
  obtain ⟨old, new, rfl, advances, adds⟩ := step.advances inv
  have kept : Inv lib tr old := inv.evolve (advances.imp fun _ _ h => ⟨h.ok, h.evolves⟩)
  cases adds with
  | none =>
    rw [List.append_nil]
    exact ⟨kept.ids, kept.ok, fun j hj => (kept.created j hj).append _⟩
  | @created opts id clock valid _ _ =>
    refine ⟨?_, fun j hj => ?_, fun j hj => ?_⟩
    · rw [List.map_append, List.nodup_append_comm]
      exact List.nodup_cons.mpr ⟨kept.unused (fresh id.text (by simp [drawn])), kept.ids⟩
    · rcases List.mem_append.mp hj with hj | hj
      · exact kept.ok j hj
      · rw [List.mem_singleton.mp hj]
        exact buildJob_ok lib opts id.text clock.build
    · rcases List.mem_append.mp hj with hj | hj
      · exact (kept.created j hj).append _
      · rw [List.mem_singleton.mp hj]
        exact ⟨opts, id, clock, List.mem_append_right tr List.mem_cons_self, valid, rfl⟩

section
variable {A : Trace → Op → Resp → Prop}

/-- With fresh ids, every state of a run satisfies the invariant. -/
theorem inv_of_run (fresh : ∀ {tr op resp}, A tr op resp → FreshIDs tr op resp)
    (run : (machine lib q sees).Run A tr js) : Inv lib tr js := by
  refine run.inv (P := Inv lib) .empty ?_
  intro tr js op resp js' _ inv ha step
  exact Step.inv inv (fresh ha) step

end

/-- Every job is still there, further on. -/
def Retains (js js' : List Job) : Prop := ∀ j ∈ js, ∃ j' ∈ js', Evolves j j'

theorem Step.retains (inv : Inv lib tr js) (step : Step lib q sees js op resp js') : Retains js js' := by
  obtain ⟨old, new, rfl, advances, -⟩ := step.advances inv
  intro j hj
  obtain ⟨j', hj', adv⟩ := Lists.forall₂_mem_left advances hj
  exact ⟨j', List.mem_append_left new hj', adv.evolves⟩

theorem Retains.refl (js : List Job) : Retains js js := fun j hj => ⟨j, hj, .refl j⟩

theorem Retains.trans {js js' js'' : List Job} (h : Retains js js') (h' : Retains js' js'') : Retains js js'' := by
  intro j hj
  obtain ⟨j', hj', evolves⟩ := h j hj
  obtain ⟨j'', hj'', evolves'⟩ := h' j' hj'
  exact ⟨j'', hj'', evolves.trans evolves'⟩

end Board
end Aquila.Jobs

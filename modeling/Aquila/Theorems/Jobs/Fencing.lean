import Aquila.Theorems.Jobs.Stores

/-! Fencing: every lease has a new attempt and a higher fence, and only the attempt of the latest lease can
    renew or commit its task. -/

namespace Aquila.Jobs
variable {l : Lease} {t t' : Task}

/-! ### The leases of a task -/

def leases (tr : Trace) : List Lease := tr.filterMap fun e => match e.2 with
  | .lease l => some l
  | _ => none

def leasesOf (tr : Trace) (t : Task) : List Lease :=
  (leases tr).filter fun l => l.task.jobID = t.jobID ∧ l.task.id = t.id

/-- The latest lease of a task has the attempt `a`. -/
def LatestAttempt (tr : Trace) (t : Task) (a : String) : Prop := ((leasesOf tr t).getLast?).map (·.attempt) = some a

instance (tr : Trace) (t : Task) (a : String) : Decidable (LatestAttempt tr t a) := inferInstanceAs (Decidable (_ = _))

theorem mem_leases {tr : Trace} : l ∈ leases tr ↔ ∃ op, (op, Resp.lease l) ∈ tr := by
  simp only [leases, List.mem_filterMap]
  constructor
  · rintro ⟨⟨op, resp⟩, mem, eq⟩
    cases resp <;> simp at eq
    subst eq
    exact ⟨op, mem⟩
  · rintro ⟨op, mem⟩
    exact ⟨_, mem, rfl⟩

theorem leases_append (tr : Trace) (op : Op) (resp : Resp) :
    leases (tr ++ [(op, resp)]) = leases tr ++ (match resp with | .lease l => [l] | _ => []) := by
  cases resp <;> simp [leases, List.filterMap_append]

theorem leasesOf_congr (tr : Trace) (static : t'.static = t.static) : leasesOf tr t' = leasesOf tr t := by
  simp only [leasesOf, static_jobID static, static_id static]

theorem leasesOf_untouched {tr : Trace} (op : Op) {resp : Resp}
    (untouched : ∀ u, resp.touched = some u → u.jobID = t.jobID → u.id ≠ t.id) :
    leasesOf (tr ++ [(op, resp)]) t = leasesOf tr t := by
  rw [leasesOf, leases_append, List.filter_append]
  cases resp with
  | lease l =>
    have other : ¬(l.task.jobID = t.jobID ∧ l.task.id = t.id) := fun ⟨jobID, id⟩ => untouched l.task rfl jobID id
    simp [leasesOf, other]
  | _ => exact List.append_nil _

theorem leasesOf_leased {tr : Trace} (op : Op) (jobID : l.task.jobID = t.jobID) (id : l.task.id = t.id) :
    leasesOf (tr ++ [(op, .lease l)]) t = leasesOf tr t ++ [l] := by
  simp [leasesOf, leases_append, jobID, id]

/-- The tasks that `Commit` returned. -/
def commits (tr : Trace) : List Task := tr.filterMap fun e => match e.2 with
  | .task t => some t
  | _ => none

theorem mem_commits {tr : Trace} : t ∈ commits tr ↔ ∃ e ∈ tr, e.2 = .task t := by
  rw [commits, List.mem_filterMap]
  refine exists_congr fun e => and_congr_right fun _ => ?_
  cases e.2 <;> simp

/-! ### The history of a task -/

/-- The result of a task was supplied by the attempt of its latest lease. -/
def Supplied (tr : Trace) (t : Task) : Prop :=
  ∃ taskID attemptID fail aid, (Op.commit taskID attemptID t.result fail, Resp.task t) ∈ tr ∧
    normalizeID attemptID = some aid ∧ LatestAttempt tr t aid

def Uncommitted (tr : Trace) (t : Task) : Prop := ∀ e ∈ tr, ∀ u, e.2 = .task u → u.jobID = t.jobID → u.id ≠ t.id

/-- What a task remembers of the calls so far. -/
structure History (tr : Trace) (t : Task) : Prop where
  fence : t.fence = int64 (leasesOf tr t).length
  held : t.state = .leased → LatestAttempt tr t t.attemptID
  result : t.result = {} ∧ Uncommitted tr t ∨ t.state.terminal = true ∧ Supplied tr t

theorem Uncommitted.append {tr : Trace} {op : Op} {resp : Resp} (h : Uncommitted tr t)
    (static : t'.static = t.static) (untouched : ∀ u, resp = .task u → u.jobID = t.jobID → u.id ≠ t.id) :
    Uncommitted (tr ++ [(op, resp)]) t' := by
  intro e he u hu
  rw [static_jobID static, static_id static]
  rcases List.mem_append.mp he with he | he
  · exact h e he u hu
  · rw [List.mem_singleton.mp he] at hu
    exact untouched u hu

theorem History.moved {tr : Trace} {op : Op} {resp : Resp} (h : History tr t)
    (moved : Board.Moved op resp t t') : History (tr ++ [(op, resp)]) t' := by
  cases moved with
  | kept kept untouched =>
    have same : leasesOf (tr ++ [(op, resp)]) t' = leasesOf tr t := by
      rw [leasesOf_congr _ kept.static, leasesOf_untouched op untouched]
    refine ⟨?_, fun leased => ?_, ?_⟩
    · rw [same, kept.fence, h.fence]
    · obtain ⟨leased, attempt, -⟩ := kept.leased leased
      rw [LatestAttempt, same, attempt]
      exact h.held leased
    · rcases h.result with ⟨none_, uncommitted⟩ | ⟨finished, taskID, attemptID, fail, aid, mem, normal, latest⟩
      · exact .inl ⟨kept.result.trans none_, uncommitted.append kept.static fun u hu => untouched u (hu ▸ rfl)⟩
      · obtain rfl := kept.terminal finished
        refine .inr ⟨finished, taskID, attemptID, fail, aid, List.mem_append_left _ mem, normal, ?_⟩
        rw [LatestAttempt, same]
        exact latest
  | @leased u w now attempt l hop hresp kept ready task attempt' fence =>
    subst hop hresp
    have static : (leaseTask u attempt.text w.id now).static = t.static := kept.static
    have same : leasesOf (tr ++ [(Op.lease w now attempt, Resp.lease l)]) (leaseTask u attempt.text w.id now) =
        leasesOf tr t ++ [l] := by
      rw [leasesOf_congr _ static, leasesOf_leased]
      · rw [task]; exact static_jobID static
      · rw [task]; exact static_id static
    refine ⟨?_, fun _ => ?_, ?_⟩
    · rw [same, List.length_append, List.length_singleton, Nat.cast_add, Nat.cast_one, ← int64_succ,
        ← h.fence, ← kept.fence]
      rfl
    · rw [LatestAttempt, same, List.getLast?_concat]
      exact congrArg some attempt'
    · rcases h.result with ⟨none_, uncommitted⟩ | ⟨finished, -⟩
      · exact .inl ⟨kept.result.trans none_, uncommitted.append static (by simp)⟩
      · rw [kept.terminal finished] at ready
        simp [ready, TaskState.terminal] at finished
  | @committed _ taskID attemptID aid result fail hop hresp ids commit =>
    subst hop hresp
    obtain ⟨leased, attempt, static, fence, result', -, -, state⟩ := applyCommit_ok commit
    have finished : t'.state.terminal = true := by
      rcases state with ⟨-, hs⟩ | ⟨-, hs⟩ <;> simp [hs, TaskState.terminal]
    have same : leasesOf (tr ++ [(Op.commit taskID attemptID result fail, Resp.task t')]) t' = leasesOf tr t := by
      rw [leasesOf_congr _ static, leasesOf, leases_append]
      exact congrArg _ (List.append_nil _)
    refine ⟨?_, fun leased' => ?_, .inr ⟨finished, taskID, attemptID, fail, aid, ?_, (normalizeIDs_ok ids).2, ?_⟩⟩
    · rw [same, fence, h.fence]
    · rw [leased'] at finished
      cases finished
    · rw [result']
      exact List.mem_append_right tr List.mem_cons_self
    · rw [LatestAttempt, same, ← attempt]
      exact h.held leased

/-! ### Runs of the board -/

namespace Board
variable {lib : Lib} {q : Quota} {sees : Job → Bool} {tr : Trace} {js js' : List Job} {op : Op} {resp : Resp} {j : Job}

/-- The histories of all tasks; what was leased or committed is a task of a stored job. -/
structure Ledger (tr : Trace) (js : List Job) : Prop where
  tasks : ∀ j ∈ js, ∀ t ∈ j.tasks, History tr t
  touched : ∀ e ∈ tr, ∀ u, e.2.touched = some u → u.jobID ∈ js.map Job.id

theorem Step.touched (inv : Inv lib tr js) (step : Step lib q sees js op resp js') {u : Task}
    (h : resp.touched = some u) :
    u.jobID ∈ js.map Job.id := by
  cases step with
  | leased w now attempt j i t leasable =>
    have inv' : Inv lib tr (Board.expire lib sees now js) := inv.expire now
    have spec := leaseJob_spec (inv'.ok j leasable.mem) leasable.task leasable.ready leasable.worker now attempt
    have eq : u = leaseTask t attempt.text w.id now := by simpa [Resp.touched, leaseOf, spec.task] using h.symm
    have ids : (Board.expire lib sees now js).map Job.id = js.map Job.id :=
      Lists.map_eq_of_forall₂ (expire_keeps inv.ok now) fun _ _ h => h.evolves.id
    rw [eq, ← ids]
    exact inv'.jobID leasable.mem (List.mem_of_getElem? leasable.task) ▸ List.mem_map_of_mem leasable.mem
  | committed taskID attemptID result fail tid aid j i t t' _ found commit =>
    have spec := commit_spec (inv.ok j found.mem) found.task commit
    have eq : u = t' := by simpa [Resp.touched, spec.task] using h.symm
    rw [eq, static_jobID (applyCommit_ok commit).2.2.1, inv.jobID found.mem (List.mem_of_getElem? found.task)]
    exact List.mem_map_of_mem found.mem
  | _ => cases h

theorem Ledger.unstarted (ledger : Ledger tr js) {opts : CreateOpts} {id : String} {clock : Time}
    (unused : id ∉ js.map Job.id)
    (ht : t ∈ (buildJob lib opts id clock).tasks) : History tr t := by
  obtain ⟨fence, result, unleased⟩ := buildJob_unstarted lib opts id clock ht
  have jobID : t.jobID = id := by
    obtain ⟨i, hi⟩ := List.mem_iff_getElem?.mp ht
    exact ((buildJob_ok lib opts id clock).tasks.ids i t hi).2
  have untouched : ∀ e ∈ tr, ∀ u, e.2.touched = some u → u.jobID ≠ t.jobID := by
    intro e he u hu same
    exact unused (jobID ▸ same ▸ ledger.touched e he u hu)
  refine ⟨?_, fun leased => absurd leased unleased, .inl ⟨result, fun e he u hu same => ?_⟩⟩
  · have none : leasesOf tr t = [] := by
      refine List.filter_eq_nil_iff.mpr fun l hl => ?_
      obtain ⟨op, mem⟩ := mem_leases.mp hl
      have := untouched _ mem l.task rfl
      simp [this]
    rw [fence, none]
    rfl
  · exact absurd same (untouched e he u (hu ▸ rfl))

theorem Ledger.step (inv : Inv lib tr js) (ledger : Ledger tr js) (fresh : FreshIDs tr op resp)
    (step : Step lib q sees js op resp js') : Ledger (tr ++ [(op, resp)]) js' := by
  have touched := fun u => step.touched inv (u := u)
  obtain ⟨old, new, rfl, advances, adds⟩ := step.advances inv
  have ids : old.map Job.id = js.map Job.id := Lists.map_eq_of_forall₂ advances fun _ _ h => h.evolves.id
  refine ⟨fun j' hj' t' ht' => ?_, fun e he u hu => ?_⟩
  · rcases List.mem_append.mp hj' with hj' | hj'
    · obtain ⟨j, hj, adv⟩ := Lists.forall₂_mem_right advances hj'
      obtain ⟨t, ht, moved⟩ := Lists.forall₂_mem_right adv.moved ht'
      exact (ledger.tasks j hj t ht).moved moved
    · cases adds with
      | none => cases hj'
      | @created opts id clock _ _ _ =>
        rw [List.mem_singleton.mp hj'] at ht'
        exact (ledger.unstarted (inv.unused (fresh id.text (by simp [drawn]))) ht').moved
          (.kept (.refl t') (by simp [Resp.touched]))
  · rw [List.map_append, ids]
    refine List.mem_append_left _ ?_
    rcases List.mem_append.mp he with he | he
    · exact ledger.touched e he u hu
    · rw [List.mem_singleton.mp he] at hu
      exact touched u hu

/-! ### Commits -/

/-- The tasks that `Commit` returned are stored as they were returned, and no two of them are one task. -/
structure Booked (tr : Trace) (js : List Job) : Prop where
  stored : ∀ u ∈ commits tr, u.state.terminal = true ∧ ∃ j ∈ js, j.id = u.jobID ∧ u ∈ j.tasks
  once : (commits tr).Pairwise fun u u' => u.jobID = u'.jobID → u.id ≠ u'.id

theorem Booked.step (inv : Inv lib tr js) (ledger : Ledger tr js) (booked : Booked tr js)
    (step : Step lib q sees js op resp js') :
    Booked (tr ++ [(op, resp)]) js' := by
  have kept : ∀ u ∈ commits tr, u.state.terminal = true ∧ ∃ j ∈ js', j.id = u.jobID ∧ u ∈ j.tasks := by
    intro u hu
    obtain ⟨finished, j, hj, own, mem⟩ := booked.stored u hu
    obtain ⟨j', hj', evolves⟩ := step.retains inv j hj
    obtain ⟨u', hu', grows⟩ := Lists.forall₂_mem_left evolves.tasks mem
    exact ⟨finished, j', hj', evolves.id.trans own, grows.terminal finished ▸ hu'⟩
  have parts : commits (tr ++ [(op, resp)]) = commits tr ++ commits [(op, resp)] := List.filterMap_append
  cases step with
  | committed taskID attemptID result fail tid aid j i t t' _ found commit =>
    have spec := commit_spec (inv.ok j found.mem) found.task commit
    obtain ⟨leased, -, static, -, -, -, -, state⟩ := applyCommit_ok commit
    rw [spec.task, Option.getD_some] at parts ⊢
    have mem : ∀ u, u ∈ commits tr ++ [t'] ↔ u ∈ commits tr ∨ u = t' := by simp
    refine ⟨fun u hu => ?_, ?_⟩
    · rcases (mem u).mp (parts ▸ hu) with hu | rfl
      · exact kept u hu
      · refine ⟨by rcases state with ⟨-, hs⟩ | ⟨-, hs⟩ <;> simp [hs, TaskState.terminal], _,
          Keyed.mem_update_self found.mem spec.evolves.id.symm, (spec.ok.tasks.ids i u spec.task).2.symm,
            List.mem_of_getElem? spec.task⟩
    · rw [parts]
      refine List.pairwise_append.mpr ⟨booked.once, List.pairwise_singleton _ _, fun u hu v hv => ?_⟩
      obtain rfl := List.mem_singleton.mp hv
      rw [static_jobID static, static_id static]
      -- The task was leased, so that none of the calls before has committed it.
      rcases (ledger.tasks j found.mem t (List.mem_of_getElem? found.task)).result with ⟨-, uncommitted⟩ | ⟨finished, -⟩
      · obtain ⟨e, he, same⟩ := mem_commits.mp hu
        exact uncommitted e he u same
      · rw [leased] at finished
        cases finished
  | _ =>
    have same := parts.trans (List.append_nil _)
    exact ⟨same ▸ kept, same ▸ booked.once⟩

/-! ### Tasks with one id -/

/-- Ids tell the tasks apart, because the ids of the jobs differ in their first twelve digits and no job has more
    tasks than four digits count. -/
structure Apart (js : List Job) : Prop where
  starts : (js.map fun j => j.id.toList.take 12).Nodup
  few : ∀ j ∈ js, j.tasks.length ≤ 65536

theorem Apart.normalized (apart : Apart js) (inv : Inv lib tr js) (hj : j ∈ js) (ht : t ∈ j.tasks) :
    normalizeID t.id = some t.id := by
  obtain ⟨i, hi⟩ := List.mem_iff_getElem?.mp ht
  obtain ⟨id, hid, -⟩ := (inv.created j hj).id
  rw [((inv.ok j hj).tasks.ids i t hi).1, hid]
  have few := apart.few j hj
  have inside := (List.getElem?_eq_some_iff.mp hi).1
  exact taskID_normalized id (by omega)

theorem Apart.place_eq (apart : Apart js) (inv : Inv lib tr js) (hj : j ∈ js) {j' : Job} (hj' : j' ∈ js) {i i' : Nat}
    (hi : j.tasks[i]? = some t) (hi' : j'.tasks[i']? = some t') (same : t.id = t'.id) : j = j' ∧ i = i' ∧ t = t' := by
  obtain ⟨id, hid, -⟩ := (inv.created j hj).id
  obtain ⟨id', hid', -⟩ := (inv.created j' hj').id
  rw [((inv.ok j hj).tasks.ids i t hi).1, ((inv.ok j' hj').tasks.ids i' t' hi').1, hid, hid'] at same
  obtain ⟨start, rfl⟩ := taskID_inj same
  obtain rfl : j = j' := Keyed.eq_of_key apart.starts hj hj' (by rw [hid, hid', start])
  exact ⟨rfl, rfl, Option.some.inj (hi.symm.trans hi')⟩

theorem Apart.task_eq (apart : Apart js) (inv : Inv lib tr js) (hj : j ∈ js) {j' : Job} (hj' : j' ∈ js)
    (ht : t ∈ j.tasks) (ht' : t' ∈ j'.tasks) (same : t.id = t'.id) : t = t' := by
  obtain ⟨i, hi⟩ := List.mem_iff_getElem?.mp ht
  obtain ⟨i', hi'⟩ := List.mem_iff_getElem?.mp ht'
  exact (apart.place_eq inv hj hj' hi hi' same).2.2

/-- A new job keeps the tasks apart if the first twelve digits of its id are not those of a stored job, and its
    plan has at most 65536 steps. -/
def Spread (js : List Job) : Op → Prop
  | .create opts id _ => (∀ j ∈ js, j.id.toList.take 12 ≠ id.text.toList.take 12) ∧ opts.plan.steps.length ≤ 65536
  | _ => True

instance (js : List Job) : DecidablePred (Spread js)
  | .create opts id _ =>
    inferInstanceAs (Decidable ((∀ j ∈ js, j.id.toList.take 12 ≠ id.text.toList.take 12) ∧
      opts.plan.steps.length ≤ 65536))
  | .get _ | .list _ _ | .lease _ _ _ | .heartbeat _ _ _ _ | .commit _ _ _ _ | .requeueExpired _ | .cancel _ =>
    inferInstanceAs (Decidable True)

theorem Apart.step (inv : Inv lib tr js) (apart : Apart js) (spread : Spread js op)
    (step : Step lib q sees js op resp js') : Apart js' := by
  obtain ⟨old, new, rfl, advances, adds⟩ := step.advances inv
  have starts : (old.map fun j => j.id.toList.take 12) = js.map fun j => j.id.toList.take 12 :=
    Lists.map_eq_of_forall₂ advances fun _ _ h => by rw [h.evolves.id]
  have few : ∀ j ∈ old, j.tasks.length ≤ 65536 := by
    intro j' hj'
    obtain ⟨j, hj, adv⟩ := Lists.forall₂_mem_right advances hj'
    rw [← adv.evolves.tasks.length_eq]
    exact apart.few j hj
  cases adds with
  | none =>
    rw [List.append_nil]
    exact ⟨starts ▸ apart.starts, few⟩
  | @created opts id clock _ _ _ =>
    refine ⟨?_, fun j hj => ?_⟩
    · rw [List.map_append, List.nodup_append_comm, starts]
      refine List.nodup_cons.mpr ⟨fun used => ?_, apart.starts⟩
      obtain ⟨j, hj, same⟩ := List.mem_map.mp used
      exact spread.1 j hj same
    · rcases List.mem_append.mp hj with hj | hj
      · exact few j hj
      · rw [List.mem_singleton.mp hj, ← (buildJob_tasks lib opts id.text clock.build).length_eq]
        simpa [planTasks] using spread.2

end Board

/-! ### Fencing -/

/-- A heartbeat or a commit that names a task with an attempt. -/
def Op.Names (t : Task) (attempt : String) : Op → Prop
  | .heartbeat taskID attemptID _ _ => normalizeID taskID = normalizeID t.id ∧ attemptID = attempt
  | .commit taskID attemptID _ _ => normalizeID taskID = normalizeID t.id ∧ attemptID = attempt
  | _ => False

theorem Op.Names.drawn {op : Op} {a : String} (names : op.Names t a) (resp : Resp) : Jobs.drawn (op, resp) = [] := by
  cases op with
  | heartbeat => rfl
  | commit => rfl
  | _ => cases names

/-- The task is leased and its latest lease has this attempt. -/
def Current (tr : Trace) (t : Task) (attempt : String) : Prop :=
  t.state = .leased ∧ ∃ aid, normalizeID attempt = some aid ∧ LatestAttempt tr t aid

/-- Fencing, in a state `s` that a store reached with the calls `tr`. -/
structure Fenced (lib : Lib) (q : Quota) (k : StoreKind) (tr : Trace) (s : (k.machine lib q).State) : Prop where
  -- A lease raises the fence of its task and has an attempt that no lease had before.
  leases : ∀ op l s', FreshIDs tr op (.lease l) → (k.machine lib q).Step s op (.lease l) s' →
    (∃ j ∈ k.jobs lib q s, ∃ t ∈ j.tasks, t.jobID = l.task.jobID ∧ t.id = l.task.id ∧ t.fence < l.fence) ∧
      (∃ j ∈ k.jobs lib q s', l.task ∈ j.tasks) ∧ l.task.fence = l.fence ∧ l.task.attemptID = l.attempt ∧
      ∀ l' ∈ Jobs.leases tr, l'.attempt ≠ l.attempt
  -- A task accepts at most one attempt.
  single : ∀ j ∈ k.jobs lib q s, ∀ t ∈ j.tasks, ∀ op op' a a' resp resp' s' s'', op.Names t a → op'.Names t a' →
    (k.machine lib q).Step s op resp s' → (k.machine lib q).Step s op' resp' s'' →
    (∀ e, resp ≠ .err e) → (∀ e, resp' ≠ .err e) → normalizeID a = normalizeID a'
  -- Any other attempt than that of the latest lease, or that one when the task is not leased any more, fails and
  -- changes nothing.
  stale : ∀ j ∈ k.jobs lib q s, ∀ t ∈ j.tasks, ∀ op a resp s', op.Names t a → ¬Current tr t a →
    (k.machine lib q).Step s op resp s' → ∃ e, resp = .err e ∧ k.jobs lib q s' = k.jobs lib q s
  -- The result of a task comes from the attempt of its latest lease.
  result : ∀ j ∈ k.jobs lib q s, ∀ t ∈ j.tasks, t.result = {} ∧ Uncommitted tr t ∨ Supplied tr t

/-- A heartbeat or commit fails and changes nothing, or finds a leased task with its attempt. -/
theorem Board.Step.named {lib : Lib} {q : Quota} {sees : Job → Bool} {js js' : List Job} {op : Op} {resp : Resp}
    (step : Board.Step lib q sees js op resp js') {a : String} (names : op.Names t a) :
    (∃ e, resp = .err e ∧ js' = js) ∨
      ∃ j' ∈ js, ∃ t' ∈ j'.tasks, normalizeID t.id = some t'.id ∧ t'.state = .leased ∧
      normalizeID a = some t'.attemptID := by
  cases step with
  | refused op e => exact .inl ⟨e, rfl, rfl⟩
  | expiredOnly op e now expiry => cases op <;> simp [Board.expiryOf, Op.Names] at expiry names
  | renewed taskID attemptID workerID now tid aid j i t' t'' ids found renew =>
    obtain ⟨same, rfl⟩ := names
    obtain ⟨leased, attempt, -⟩ := applyHeartbeat_ok renew
    obtain ⟨normal, normal'⟩ := normalizeIDs_ok ids
    exact .inr ⟨j, found.mem, t', List.mem_of_getElem? found.task, by rw [← same, normal, found.id], leased,
      by rw [normal', attempt]⟩
  | committed taskID attemptID result fail tid aid j i t' t'' ids found commit =>
    obtain ⟨same, rfl⟩ := names
    obtain ⟨leased, attempt, -⟩ := applyCommit_ok commit
    obtain ⟨normal, normal'⟩ := normalizeIDs_ok ids
    exact .inr ⟨j, found.mem, t', List.mem_of_getElem? found.task, by rw [← same, normal, found.id], leased,
      by rw [normal', attempt]⟩
  | _ => cases names

section
variable {lib : Lib} {q : Quota} {k : StoreKind} {tr : Trace} {s : (k.machine lib q).State}

theorem ledger_of_run (run : (k.machine lib q).Run FreshIDs tr s) : Board.Ledger tr (k.jobs lib q s) := by
  refine run.inv (P := fun tr s => Board.Ledger tr (k.jobs lib q s)) ?_ ?_
  · rw [k.jobs_init]
    exact ⟨by simp, by simp⟩
  · intro tr s op resp s' run ledger fresh step
    exact ledger.step (StoreKind.inv_of_run id run) fresh (StoreKind.board_step id run fresh step)

/-- No commit is lost, and none is made twice: over every run, what `Commit` returned is stored as it was returned,
    and no task was committed before. -/
theorem commits_booked (run : (k.machine lib q).Run FreshIDs tr s) : Board.Booked tr (k.jobs lib q s) := by
  refine run.inv (P := fun tr s => Board.Booked tr (k.jobs lib q s)) ⟨by simp [commits], .nil⟩ ?_
  intro tr s op resp s' run booked fresh step
  exact booked.step (StoreKind.inv_of_run id run) (ledger_of_run run) (StoreKind.board_step id run fresh step)

theorem attempt_issued (run : (k.machine lib q).Run FreshIDs tr s) (hl : l ∈ leases tr) : l.attempt ∈ issued tr := by
  obtain ⟨op, mem⟩ := mem_leases.mp hl
  obtain ⟨tr₀, s₀, s₁, run₀, fresh, step⟩ := run.fired mem
  have leased := (StoreKind.board_step id run₀ fresh step).leased_spec (StoreKind.inv_of_run id run₀)
  exact List.mem_flatMap.mpr ⟨_, mem, leased.drawn⟩

theorem apart_of_run (run : (k.within lib q Board.Spread).Run FreshIDs tr s) : Board.Apart (k.jobs lib q s) := by
  refine run.inv_restrict (P := fun _ s => Board.Apart (k.jobs lib q s)) ?_ ?_
  · rw [k.jobs_init]
    exact ⟨List.nodup_nil, by simp⟩
  · intro tr s op resp s' run apart fresh spread step
    exact apart.step (StoreKind.inv_of_run id run) spread (StoreKind.board_step id run fresh step)

/-- Fencing holds in every state of every run in which each new job keeps the task ids apart, as long as no task was
    leased so often that its fence wraps. -/
theorem fencing (run : (k.within lib q Board.Spread).Run FreshIDs tr s)
    (few : ∀ j ∈ k.jobs lib q s, ∀ t ∈ j.tasks, (leasesOf tr t).length + 1 < 2 ^ 63) : Fenced lib q k tr s := by
  have base : (k.machine lib q).Run FreshIDs tr s := run.of_restrict
  have inv := StoreKind.inv_of_run id base
  have ledger := ledger_of_run base
  have apart := apart_of_run run
  -- what is accepted under the name of a task is found at that task
  have accepted : ∀ j ∈ k.jobs lib q s, ∀ t ∈ j.tasks, ∀ op a resp s', op.Names t a →
    (k.machine lib q).Step s op resp s' →
      (∃ e, resp = .err e ∧ k.jobs lib q s' = k.jobs lib q s) ∨ t.state = .leased ∧
        normalizeID a = some t.attemptID := by
    intro j hj t ht op a resp s' names step
    have fresh : FreshIDs tr op resp := by
      rw [FreshIDs, names.drawn]
      simp
    rcases (StoreKind.board_step id base fresh step).named names with failed | ⟨j', hj', t', ht', normal,
      leased, attempt⟩
    · exact .inl failed
    · rw [apart.normalized inv hj ht] at normal
      obtain rfl := apart.task_eq inv hj hj' ht ht' (Option.some.inj normal)
      exact .inr ⟨leased, attempt⟩
  refine ⟨fun op l s' fresh step => ?_, ?_, ?_, fun j hj t ht => ?_⟩
  · have leased := (StoreKind.board_step id base fresh step).leased_spec inv
    obtain ⟨j, hj, t, ht, jobID, id, fence⟩ := leased.before
    refine ⟨⟨j, hj, t, ht, jobID, id, ?_⟩, ⟨l.job, leased.stored, leased.task⟩, leased.fence, leased.attempt,
      fun l' hl' same => ?_⟩
    · have few := few j hj t ht
      rw [fence, (ledger.tasks j hj t ht).fence, int64_succ, int64_of_range (by omega) (by omega),
        int64_of_range (by omega) (by omega)]
      omega
    · exact fresh l.attempt leased.drawn (same ▸ attempt_issued base hl')
  · intro j hj t ht op op' a a' resp resp' s' s'' names names' step step' ok ok'
    rcases accepted j hj t ht op a resp s' names step with ⟨e, failed, -⟩ | ⟨-, attempt⟩
    · exact absurd failed (ok e)
    rcases accepted j hj t ht op' a' resp' s'' names' step' with ⟨e, failed, -⟩ | ⟨-, attempt'⟩
    · exact absurd failed (ok' e)
    rw [attempt, attempt']
  · intro j hj t ht op a resp s' names stale step
    rcases accepted j hj t ht op a resp s' names step with failed | ⟨leased, attempt⟩
    · exact failed
    · exact absurd ⟨leased, t.attemptID, attempt, (ledger.tasks j hj t ht).held leased⟩ stale
  · exact (ledger.tasks j hj t ht).result.imp id And.right

end

open Sample in
theorem commits_booked_sample : commits (play .postgres [create, lease, commit]).1 ≠ [] ∧
    Board.Booked (play .postgres [create, lease, commit]).1
    (StoreKind.postgres.jobs Lib.plain {} (play .postgres [create, lease, commit]).2) :=
  ⟨by decide +kernel, commits_booked (Sample.run .postgres _ (by decide +kernel))⟩

open Sample in
theorem fencing_sample : leases (play .memory [create, lease]).1 ≠ [] ∧
    Fenced Lib.plain {} .memory (play .memory [create, lease]).1 (play .memory [create, lease]).2 :=
  ⟨by decide +kernel, fencing (StoreKind.memory.play_run (C := Board.Spread) (by decide +kernel)) (by decide +kernel)⟩

namespace Sample

def firstID : ID := ⟨"0123456789ab0000", by decide, by decide⟩
def secondID : ID := ⟨"0123456789ab0001", by decide, by decide⟩

def collision : List Op :=
  [.create (opts [{ id := "env", kind := "env" }]) firstID clock, lease,
    .create { opts [{ id := "env", kind := "env" }] with baseline := "http://c", patch := "http://d" } secondID clock]

def commitFirst : Op := .commit "0123456789ab0000" attempt.text { verdict := "prepared" } ""

end Sample

open Sample in
theorem unfenced_collision (k : StoreKind) : ¬Fenced Lib.plain {} k (play k collision).1 (play k collision).2 := by
  intro fenced
  obtain ⟨j, hj, t, ht, id, unleased⟩ : ∃ j ∈ k.jobs Lib.plain {} (play k collision).2, ∃ t ∈ j.tasks,
      normalizeID "0123456789ab0000" = normalizeID t.id ∧ t.state ≠ .leased := by cases k <;> decide +kernel
  obtain ⟨e, failed, -⟩ := fenced.stale j hj t ht commitFirst attempt.text _ _ ⟨id,
    rfl⟩ (fun current => unleased current.1)
    (k.call_step (play k collision).2 commitFirst)
  have accepted : (k.call Lib.plain {} (play k collision).2 commitFirst).2.touched ≠ none := by
    cases k <;> decide +kernel
  rw [failed] at accepted
  exact accepted rfl

open Sample in
/-- Fencing fails in both stores when two jobs have ids that start alike. -/
theorem fencing_fails :
    ((StoreKind.memory.machine Lib.plain {}).Run FreshIDs (play .memory collision).1 (play .memory collision).2 ∧
      ¬Fenced Lib.plain {} .memory (play .memory collision).1 (play .memory collision).2) ∧
    ((StoreKind.postgres.machine Lib.plain {}).Run FreshIDs (play .postgres collision).1 (play .postgres collision).2 ∧
      ¬Fenced Lib.plain {} .postgres (play .postgres collision).1 (play .postgres collision).2) :=
  ⟨⟨Sample.run .memory collision (by decide +kernel), unfenced_collision .memory⟩,
    ⟨Sample.run .postgres collision (by decide +kernel), unfenced_collision .postgres⟩⟩

end Aquila.Jobs

import Aquila.Theorems.Jobs.Admission
import Aquila.Theorems.Jobs.Expiry
import Aquila.Theorems.Jobs.Fencing

/-! Deadlines: after a pass over the jobs no unfinished job is past its deadline, and the attempts on what failed are
    never accepted again. -/

namespace Aquila.Jobs
variable {w : Worker} {e : Err} {attempt : ID} {j j' : Job} {t' : Task} {a : String}

/-! ### Calls that make a pass -/

/-- The calls that have made a pass at `now`. -/
inductive Sweeps (now : Time) : Op → Resp → Prop
  | requeued (n : Nat) : Sweeps now (.requeueExpired now) (.count n)
  | leased (w : Worker) (attempt : ID) (l : Lease) : Sweeps now (.lease w now attempt) (.lease l)
  | noReady (w : Worker) (attempt : ID) : Sweeps now (.lease w now attempt) (.err .noReady)
  | capacity (w : Worker) (attempt : ID) : Sweeps now (.lease w now attempt) (.err .capacity)

theorem Worker.wantJob_error (h : w.wantJob = .error e) : e = .invalidID := by
  unfold Worker.wantJob at h
  split_ifs at h
  cases normal : normalizeID w.jobID <;> simp [normal] at h
  exact h.symm

theorem Memory.lease_refused {lib : Lib} {q : Quota} {now : Time} {m m' : Memory}
    (h : Memory.lease lib q w now attempt m = (m', .err e)) (he : e = .noReady ∨ e = .capacity) :
    m' = (Memory.requeueExpired lib now m).1 := by
  have kept : ∀ {e'}, ((Memory.requeueExpired lib now m).1, Resp.err e') = (m', .err e) →
      m' = (Memory.requeueExpired lib now m).1 := fun same => (Prod.mk.inj same).1.symm
  unfold Memory.lease at h
  dsimp only at h
  split_ifs at h with blank full
  · obtain ⟨-, rfl⟩ : m = m' ∧ errWorkerID = e := by simpa using h
    simp [errWorkerID] at he
  · exact kept h
  · cases want : w.wantJob with
    | error e' => rw [want] at h; exact kept h
    | ok want' =>
      cases hp : pickReady (Memory.requeueExpired lib now m).1.jobs want' q with
      | none => simp only [want, hp] at h; exact kept h
      | some pick =>
        cases hj : (Memory.requeueExpired lib now m).1.jobs[pick.job]? with
        | none => simp only [want, hp, hj] at h; exact kept h
        | some j =>
          cases ht : j.tasks[pick.task]? with
          | none => simp only [want, hp, hj, ht] at h; exact kept h
          | some t => simp [want, hp, hj, ht] at h

theorem Postgres.lease_refused {lib : Lib} {q : Quota} {now : Time} {p p' : Postgres}
    (h : Postgres.lease lib q w now attempt p = (p', .err e)) (he : e = .noReady ∨ e = .capacity) :
    p' = (Postgres.expireTx lib now p).1 := by
  have kept : ∀ {e'}, ((Postgres.expireTx lib now p).1, Resp.err e') = (p', .err e) →
      p' = (Postgres.expireTx lib now p).1 := fun same => (Prod.mk.inj same).1.symm
  unfold Postgres.lease at h
  split_ifs at h with blank
  · obtain ⟨-, rfl⟩ : p = p' ∧ errWorkerID = e := by simpa using h
    simp [errWorkerID] at he
  · cases want : w.wantJob with
    | error e' =>
      obtain ⟨-, rfl⟩ : p = p' ∧ e' = e := by simpa [want] using h
      simp [Worker.wantJob_error want] at he
    | ok want' =>
      rw [want] at h
      dsimp only at h
      split_ifs at h with full
      · exact kept h
      · cases hp : pickReady (Postgres.lockJobs lib (Postgres.expireTx lib now p).1) want' q with
        | none => simp only [hp] at h; exact kept h
        | some pick =>
          cases hj : (Postgres.lockJobs lib (Postgres.expireTx lib now p).1)[pick.job]? with
          | none => simp only [hp, hj] at h; exact kept h
          | some j =>
            cases ht : j.tasks[pick.task]? with
            | none => simp only [hp, hj, ht] at h; exact kept h
            | some t => simp [hp, hj, ht] at h

section
variable {lib : Lib} {q : Quota} {k : StoreKind} {tr : Trace} {s s' : (k.machine lib q).State} {op : Op}
  {resp : Resp} {now : Time}

/-- After a pass the jobs are the expired ones, one of them perhaps leased. -/
inductive Swept (lib : Lib) (q : Quota) (sees : Job → Bool) (now : Time) (js : List Job) : List Job → Prop
  | passed : Swept lib q sees now js (Board.expire lib sees now js)
  | leased {w : Worker} {attempt : ID} {j : Job} {i : Nat} {t : Task} :
      Board.Leasable q sees (Board.expire lib sees now js) w j i t →
      Swept lib q sees now js (Keyed.update Job.id (Board.expire lib sees now js)
        (Board.leaseJob lib j i t w now attempt))

theorem lease_refused_jobs (run : (k.machine lib q).Run FreshIDs tr s)
    (step : (k.machine lib q).Step s (.lease w now attempt) (.err e) s') (he : e = .noReady ∨ e = .capacity) :
    k.jobs lib q s' = Board.expire lib k.sees now (k.jobs lib q s) := by
  obtain ⟨-, rep⟩ := StoreKind.run_board id run
  have inv := StoreKind.inv_of_run id run
  cases k with
  | memory =>
    obtain ⟨walk, -, call⟩ := step
    have jobs : ∀ {m : Memory}, Memory.Rep m → StoreKind.jobs lib q .memory m = m.byID := fun rep => rep.jobs_eq
    rw [jobs rep] at inv ⊢
    obtain rfl := Memory.lease_refused call he
    rw [jobs (Memory.Rep.requeueExpired rep inv now)]
    exact Memory.requeueExpired_byID now s
  | postgres =>
    obtain rfl := Postgres.lease_refused step he
    exact (Postgres.expireTx_rep rep inv now).2

theorem swept_of_step (run : (k.machine lib q).Run FreshIDs tr s) (fresh : FreshIDs tr op resp)
    (step : (k.machine lib q).Step s op resp s') (sweeps : Sweeps now op resp) :
    Swept lib q k.sees now (k.jobs lib q s) (k.jobs lib q s') := by
  have board := StoreKind.board_step id run fresh step
  cases sweeps with
  | requeued n =>
    generalize k.jobs lib q s' = js' at board ⊢
    cases board
    exact .passed
  | leased w attempt l =>
    generalize k.jobs lib q s' = js' at board ⊢
    cases board with
    | leased _ _ _ j i t leasable => exact .leased leasable
  | noReady w attempt =>
    rw [lease_refused_jobs run step (.inl rfl)]
    exact .passed
  | capacity w attempt =>
    rw [lease_refused_jobs run step (.inr rfl)]
    exact .passed

/-! ### Attempts -/

theorem leases_nodup (run : (k.machine lib q).Run FreshIDs tr s) : ((leases tr).map (·.attempt)).Nodup := by
  induction run with
  | nil => exact List.nodup_nil
  | @snoc tr s s' op resp run fresh step ih =>
    cases resp with
    | lease l =>
      rw [leases_append, List.map_append, List.nodup_append_comm]
      refine List.nodup_cons.mpr ⟨fun used => ?_, ih⟩
      obtain ⟨l', hl', same⟩ := List.mem_map.mp used
      have leased := (StoreKind.board_step id run fresh step).leased_spec (StoreKind.inv_of_run id run)
      have reused : l'.attempt = l.attempt := same
      exact fresh l.attempt leased.drawn (reused ▸ attempt_issued run hl')
    | _ => simpa [leases_append] using ih

theorem leased_from (run : (k.machine lib q).Run FreshIDs tr s) {t : Task} (hj : j ∈ k.jobs lib q s) (ht : t ∈ j.tasks)
    (leased : t.state = .leased) :
    ∃ l ∈ leases tr, l.task.jobID = t.jobID ∧ l.task.id = t.id ∧ l.attempt = t.attemptID := by
  obtain ⟨l, last, attempt⟩ := Option.map_eq_some_iff.mp (((ledger_of_run run).tasks j hj t ht).held leased)
  obtain ⟨mem, of⟩ := List.mem_filter.mp (List.mem_of_getLast? last)
  exact ⟨l, mem, (of_decide_eq_true of).1, (of_decide_eq_true of).2, attempt⟩

theorem attempt_unique (run : (k.machine lib q).Run FreshIDs tr s) {t : Task} (hj : j ∈ k.jobs lib q s)
    (hj' : j' ∈ k.jobs lib q s) (ht : t ∈ j.tasks) (ht' : t' ∈ j'.tasks) (leased : t.state = .leased)
    (leased' : t'.state = .leased)
    (same : t.attemptID = t'.attemptID) : j = j' ∧ t.id = t'.id := by
  have inv := StoreKind.inv_of_run id run
  obtain ⟨l, hl, jobID, id_, attempt⟩ := leased_from run hj ht leased
  obtain ⟨l', hl', jobID', id_', attempt'⟩ := leased_from run hj' ht' leased'
  obtain rfl : l = l' := List.inj_on_of_nodup_map (leases_nodup run) hl hl' (by rw [attempt, attempt', same])
  refine ⟨Keyed.eq_of_key inv.ids hj hj' ?_, id_.symm.trans id_'⟩
  rw [← inv.jobID hj ht, ← inv.jobID hj' ht', ← jobID, ← jobID']

theorem Board.Step.held_before {js js' : List Job} {sees : Job → Bool} (inv : Board.Inv lib tr js)
    (fresh : FreshIDs tr op resp)
    (step : Board.Step lib q sees js op resp js') (hj' : j' ∈ js') (ht' : t' ∈ j'.tasks)
    (leased' : t'.state = .leased) (old : t'.attemptID ∈ issued tr) :
    ∃ j ∈ js, ∃ t ∈ j.tasks, j'.id = j.id ∧ t.state = .leased ∧ t.attemptID = t'.attemptID := by
  obtain ⟨kept, new, rfl, advances, adds⟩ := step.advances inv
  rcases List.mem_append.mp hj' with hj' | hj'
  · obtain ⟨j, hj, adv⟩ := Lists.forall₂_mem_right advances hj'
    obtain ⟨t, ht, moved⟩ := Lists.forall₂_mem_right adv.moved ht'
    cases moved with
    | kept kept _ =>
      obtain ⟨leased, attempt, -⟩ := kept.leased leased'
      exact ⟨j, hj, t, ht, adv.evolves.id, leased, attempt.symm⟩
    | @leased u w now attempt l hop hresp _ _ _ _ _ =>
      subst hop hresp
      exact absurd old (fresh attempt.text (by simp [drawn]))
    | committed _ _ _ commit =>
      obtain ⟨-, -, -, -, -, -, -, ⟨-, finished⟩ | ⟨-, finished⟩⟩ := applyCommit_ok commit <;>
        rw [finished] at leased' <;> cases leased'
  · cases adds with
    | none => cases hj'
    | created =>
      rw [List.mem_singleton.mp hj'] at ht'
      exact absurd leased' (buildJob_unstarted _ _ _ _ ht').2.2

/-- An attempt that no task holds any more, and that no lease gets again. -/
structure Spent (tr : Trace) (js : List Job) (a : String) : Prop where
  issued : a ∈ issued tr
  unheld : ∀ j ∈ js, ∀ t ∈ j.tasks, t.state = .leased → t.attemptID ≠ a

theorem issued_append (h : a ∈ issued tr) (es : Trace) : a ∈ issued (tr ++ es) := by
  rw [issued, List.flatMap_append]
  exact List.mem_append_left _ h

theorem Spent.step {js js' : List Job} {sees : Job → Bool} {a : String} (inv : Board.Inv lib tr js)
    (spent : Spent tr js a)
    (fresh : FreshIDs tr op resp) (step : Board.Step lib q sees js op resp js') : Spent (tr ++ [(op, resp)]) js' a := by
  refine ⟨issued_append spent.issued _, fun j' hj' t' ht' leased' eq => ?_⟩
  obtain ⟨j, hj, t, ht, -, leased, same⟩ := step.held_before inv fresh hj' ht' leased' (eq ▸ spent.issued)
  exact spent.unheld j hj t ht leased (same.trans eq)

/-- A heartbeat or a commit with an attempt. -/
def Op.Presents (a : String) : Op → Prop
  | .heartbeat _ attemptID _ _ => normalizeID attemptID = some a
  | .commit _ attemptID _ _ => normalizeID attemptID = some a
  | _ => False

theorem Op.Presents.drawn {op : Op} (presents : op.Presents a) (resp : Resp) : Jobs.drawn (op, resp) = [] := by
  cases op with
  | heartbeat => rfl
  | commit => rfl
  | _ => cases presents

theorem Spent.refused {js js' : List Job} {sees : Job → Bool} (spent : Spent tr js a)
    (step : Board.Step lib q sees js op resp js') (presents : op.Presents a) : ∃ e, resp = .err e := by
  cases step with
  | refused op e => exact ⟨e, rfl⟩
  | expiredOnly op e => exact ⟨e, rfl⟩
  | renewed taskID attemptID workerID now tid aid j i t t' ids found renew =>
    obtain ⟨leased, attempt, -⟩ := applyHeartbeat_ok renew
    refine absurd ?_ (spent.unheld j found.mem t (List.mem_of_getElem? found.task) leased)
    rw [attempt]
    exact Option.some.inj ((normalizeIDs_ok ids).2.symm.trans presents)
  | committed taskID attemptID result fail tid aid j i t t' ids found commit =>
    obtain ⟨leased, attempt, -⟩ := applyCommit_ok commit
    refine absurd ?_ (spent.unheld j found.mem t (List.mem_of_getElem? found.task) leased)
    rw [attempt]
    exact Option.some.inj ((normalizeIDs_ok ids).2.symm.trans presents)
  | _ => cases presents

/-- Whatever is called later, a spent attempt is refused. -/
theorem Spent.later (run : (k.machine lib q).Run FreshIDs tr s) (spent : Spent tr (k.jobs lib q s) a)
    {tr' : Trace} (later : (k.machine lib q).Later FreshIDs tr s tr' s') : Spent tr' (k.jobs lib q s') a := by
  induction later with
  | refl => exact spent
  | snoc later fresh step ih =>
    have run' := run.later later
    exact ih.step (StoreKind.inv_of_run id run') fresh (StoreKind.board_step id run' fresh step)

/-! ### Failed jobs -/

theorem Board.CreatedIn.due (h : Board.CreatedIn lib tr j) : j.due = some j.effectiveDeadline := by
  obtain ⟨opts, id, clock, -, -, static⟩ := h
  have created : j.created = clock.build.truncate millisecond := (congrArg Job.created static :)
  have deadline : j.deadline =
      if opts.deadline.isZero then (clock.build.truncate millisecond).add defaultDeadline else opts.deadline :=
    (congrArg Job.deadline static :)
  -- a job without a deadline of its own gets one, so that it cannot lack both
  have known : j.deadline = 0 → j.created ≠ 0 := by
    intro none_ uncreated
    rw [← created, uncreated] at deadline
    rw [deadline] at none_
    split_ifs at none_ with unset
    · exact absurd none_ (by decide)
    · simp [Time.isZero, none_] at unset
  unfold Job.due Job.effectiveDeadline
  by_cases unset : j.deadline = 0
  · simp [unset, known unset, Time.isZero, Time.add]
  · simp [unset, Time.isZero]

theorem Evolves.effectiveDeadline (h : Evolves j j') : j'.effectiveDeadline = j.effectiveDeadline := by
  have deadline : j'.deadline = j.deadline := (congrArg Job.deadline h.static :)
  rw [Job.effectiveDeadline, Job.effectiveDeadline, deadline, h.created]

theorem StoreKind.sees_of_occupies (k : StoreKind) (occupies : j.occupies = true) : k.sees j = true := by
  cases k with
  | memory => rfl
  | postgres => exact occupies

/-- A job that its deadline has failed: what was over stays, and the rest failed. -/
structure Failed (j j' : Job) : Prop where
  id : j'.id = j.id
  status : j'.status = .failed
  tasks : List.Forall₂ (fun t t' : Task => t'.id = t.id ∧ (t.state.terminal = true → t' = t) ∧
    (t.state.terminal = false → t'.state = .failed ∧ t'.err = "deadline")) j.tasks j'.tasks

theorem expireJob_failed (lib : Lib) (overdue : Overdue now j) : Failed j (expireJob lib now j).1 := by
  rw [expireJob_overdue overdue]
  refine ⟨rfl, rfl, List.forall₂_map_right_iff.mpr (List.forall₂_same.mpr fun t _ => ?_)⟩
  refine ⟨static_id (deadlineTask_kept t).static, (deadlineTask_kept t).terminal, fun live => ?_⟩
  exact ⟨(deadlineTask_of_live live).1, (deadlineTask_of_live live).2.1⟩

theorem Failed.not_live (h : Failed j j') (ht' : t' ∈ j'.tasks) : ¬Live t' := by
  obtain ⟨t, -, -, ended, failed⟩ := Lists.forall₂_mem_right h.tasks ht'
  refine not_live_of_terminal ?_
  cases terminal : t.state.terminal with
  | true => rw [ended terminal]; exact terminal
  | false => simp [(failed terminal).1, TaskState.terminal]

section
variable {js js' : List Job} (inv : Board.Inv lib tr js) (swept : Swept lib q k.sees now js js')
include inv swept

theorem Swept.current (hj' : j' ∈ js') (occupies : j'.occupies = true) : ¬j'.effectiveDeadline < now := by
  -- a job of the pass went on only if its deadline had not passed
  have passed : ∀ jₑ ∈ Board.expire lib k.sees now js, jₑ.occupies = true → ¬jₑ.effectiveDeadline < now := by
    intro jₑ hjₑ occupies late
    obtain ⟨j, hj, rfl⟩ := List.mem_map.mp hjₑ
    have evolves : Evolves j (if k.sees j = true then (expireJob lib now j).1 else j) := by
      split_ifs
      · exact (expireJob_spec (inv.ok j hj) now).evolves
      · exact .refl j
    have before := evolves.occupies occupies
    rw [evolves.effectiveDeadline] at late
    have overdue : Overdue now j :=
      ⟨by rw [(inv.ok j hj).ended_eq, before]; rfl, _, (inv.created j hj).due, late⟩
    rw [if_pos (k.sees_of_occupies before), Job.occupies, (expireJob_failed lib overdue).status] at occupies
    simp at occupies
  cases swept with
  | passed => exact passed j' hj' occupies
  | @leased w attempt j i t leasable =>
    have spec := leasable.replaces inv attempt
    obtain ⟨x, hx, rfl⟩ := List.mem_map.mp hj'
    split_ifs at occupies ⊢ with same
    · rw [spec.evolves.effectiveDeadline]
      exact passed j leasable.mem (spec.evolves.occupies occupies)
    · exact passed x hx occupies

theorem Swept.failed (hj : j ∈ js) (occupies : j.occupies = true) (late : j.effectiveDeadline < now) :
    ∃ j' ∈ js', Failed j j' := by
  have overdue : Overdue now j := ⟨by rw [(inv.ok j hj).ended_eq, occupies]; rfl, _, (inv.created j hj).due, late⟩
  have failed := expireJob_failed lib overdue
  have mem : (expireJob lib now j).1 ∈ Board.expire lib k.sees now js :=
    List.mem_map.mpr ⟨j, hj, if_pos (k.sees_of_occupies occupies)⟩
  refine ⟨_, ?_, failed⟩
  cases swept with
  | passed => exact mem
  | @leased w attempt x i t leasable =>
    refine Keyed.mem_update_of_ne mem fun same => ?_
    -- the leased job has a ready task
    rw [(leasable.replaces inv attempt).evolves.id] at same
    have eq := Keyed.eq_of_key (inv.expire now).ids mem leasable.mem same
    have ready := List.mem_of_getElem? leasable.task
    rw [← eq] at ready
    exact failed.not_live ready (.inl leasable.ready)

end

/-- After a pass at `now` no unfinished job is past its deadline; what was past it has failed, and no attempt that
    held one of its tasks is ever accepted again. -/
theorem deadlines_enforced (run : (k.machine lib q).Run FreshIDs tr s) (fresh : FreshIDs tr op resp)
    (step : (k.machine lib q).Step s op resp s') (sweeps : Sweeps now op resp) :
    (∀ j' ∈ k.jobs lib q s', j'.occupies = true → ¬j'.effectiveDeadline < now) ∧
      ∀ j ∈ k.jobs lib q s, j.occupies = true → j.effectiveDeadline < now →
        (∃ j' ∈ k.jobs lib q s', Failed j j') ∧
        ∀ t ∈ j.tasks, t.state = .leased → ∀ tr' s₁ op' resp' s₂,
          (k.machine lib q).Later FreshIDs (tr ++ [(op, resp)]) s' tr' s₁ → op'.Presents t.attemptID →
          (k.machine lib q).Step s₁ op' resp' s₂ → ∃ e, resp' = .err e := by
  have inv := StoreKind.inv_of_run id run
  have run' := run.snoc fresh step
  have inv' := StoreKind.inv_of_run id run'
  have swept := swept_of_step run fresh step sweeps
  refine ⟨fun j' hj' => swept.current inv hj', fun j hj occupies late => ?_⟩
  obtain ⟨j', hj', failed⟩ := swept.failed inv hj occupies late
  refine ⟨⟨j', hj', failed⟩, fun t ht leased tr' s₁ op' resp' s₂ later presents step' => ?_⟩
  have spent : Spent (tr ++ [(op, resp)]) (k.jobs lib q s') t.attemptID := by
    obtain ⟨l, hl, -, -, attempt⟩ := leased_from run hj ht leased
    have old : t.attemptID ∈ issued tr := attempt ▸ attempt_issued run hl
    refine ⟨issued_append old _, fun x' hx' u' hu' held eq => ?_⟩
    obtain ⟨x, hx, u, hu, id_, held₀, same⟩ :=
      (StoreKind.board_step id run fresh step).held_before inv fresh hx' hu' held (eq ▸ old)
    obtain ⟨rfl, -⟩ := attempt_unique run hx hj hu ht held₀ leased (same.trans eq)
    obtain rfl := Keyed.eq_of_key inv'.ids hx' hj' (id_.trans failed.id.symm)
    exact failed.not_live hu' (.inr held)
  have run₁ := run'.later later
  refine (spent.later run' later).refused (StoreKind.board_step id run₁ ?_ step') presents
  rw [FreshIDs, presents.drawn]
  simp

end

namespace Sample

def sweep : Op := .requeueExpired (20 * minute)

end Sample

open Sample in
/-- The leased task of an overdue job fails, and its commit is refused. -/
theorem deadlines_enforced_sample : ∃ j ∈ StoreKind.jobs Lib.plain {} .postgres (play .postgres [create, lease]).2,
    (∃ j' ∈ StoreKind.jobs Lib.plain {} .postgres (play .postgres [create, lease, sweep]).2, Failed j j') ∧
      ∃ e, (StoreKind.postgres.call Lib.plain {} (play .postgres [create, lease, sweep]).2 commit).2 = .err e := by
  have run := Sample.run .postgres [create, lease] (by decide +kernel)
  have step := StoreKind.postgres.call_step (play .postgres [create, lease]).2 sweep
  obtain ⟨j, hj, occupies, late, t, ht, leased, attempt⟩ : ∃ j ∈ StoreKind.jobs Lib.plain {} .postgres
    (play .postgres [create, lease]).2,
      j.occupies = true ∧ j.effectiveDeadline < 20 * minute ∧
        ∃ t ∈ j.tasks, t.state = .leased ∧ normalizeID Sample.attempt.text = some t.attemptID := by decide +kernel
  obtain ⟨-, enforced⟩ := deadlines_enforced run (by decide +kernel) step (.requeued _)
  obtain ⟨failed, refused⟩ := enforced j hj occupies late
  exact ⟨j, hj, failed, refused t ht leased _ _ commit _ _ .refl attempt
    (StoreKind.postgres.call_step (play .postgres [create, lease, sweep]).2 commit)⟩

end Aquila.Jobs

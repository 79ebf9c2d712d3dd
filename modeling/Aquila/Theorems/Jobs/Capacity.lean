import Aquila.Theorems.Jobs.Admission

/-! Capacity: how many tasks a worker and a service hold at once. -/

namespace Aquila.Jobs

/-! ### Counting leased tasks -/

/-- A count of leased tasks that looks at what stays of a job, and at the worker of a task. -/
def Tally (p : Job → Task → Bool) : Prop :=
  ∀ {j j' : Job} {t t' : Task}, Evolves j j' → t'.workerID = t.workerID → p j' t' = p j t

theorem tally_worker (w : String) : Tally fun _ t => t.workerID = w := by
  intro j j' t t' _ worker
  simp only [worker]

theorem tally_service (service : List UInt8) : Tally fun j _ => j.service = service := by
  intro j j' t t' evolves _
  simp only [evolves.service]

def leasedIn (p : Job → Task → Bool) (j : Job) : Nat := j.tasks.countP fun t => t.state = .leased && p j t

theorem countTasks_eq (p : Job → Task → Bool) (js : List Job) : countTasks p js = (js.map (leasedIn p)).sum := rfl

def Job.working (j : Job) : Prop := ∃ t ∈ j.tasks, t.state = .leased

instance (j : Job) : Decidable j.working := inferInstanceAs (Decidable (∃ t ∈ j.tasks, t.state = .leased))

section
variable {lib : Lib} {p : Job → Task → Bool} {j j' : Job}

theorem leasedIn_eq_zero (idle : ¬j.working) : leasedIn p j = 0 := by
  refine List.countP_eq_zero.mpr fun t ht counted => idle ⟨t, ht, ?_⟩
  simp only [Bool.and_eq_true, decide_eq_true_eq] at counted
  exact counted.1

theorem leasedIn_le (tally : Tally p) (evolves : Evolves j j')
    (tasks : List.Forall₂ (fun t t' : Task => t'.state = .leased → t.state = .leased ∧
      t'.workerID = t.workerID) j.tasks j'.tasks) :
    leasedIn p j' ≤ leasedIn p j := by
  refine Lists.countP_le_of_forall₂ (fun {t t'} unleased counted => ?_) tasks
  simp only [Bool.and_eq_true, decide_eq_true_eq] at counted ⊢
  obtain ⟨leased, worker⟩ := unleased counted.1
  exact ⟨leased, (tally evolves worker).symm.trans counted.2⟩

theorem Keeps.leasedIn_le (tally : Tally p) (h : Keeps lib j j') : leasedIn p j' ≤ leasedIn p j :=
  Jobs.leasedIn_le tally h.evolves (h.tasks.imp fun _ _ kept leased => ⟨(kept.leased leased).1,
    (kept.leased leased).2.2⟩)

theorem Replaces.leasedIn_le (tally : Tally p) {i : Nat} {t t' : Task} (hi : j.tasks[i]? = some t)
    (h : Replaces lib j i t' j') : leasedIn p j' ≤ leasedIn p j + if p j' t' then 1 else 0 := by
  have inside : i < j.tasks.length := (List.getElem?_eq_some_iff.mp hi).1
  have others : leasedIn p j' ≤ (j.tasks.set i t').countP fun u => u.state = .leased && p j' u := by
    refine Lists.countP_le_of_forall₂ (fun {u u'} kept counted => ?_) h.tasks
    simp only [Bool.and_eq_true, decide_eq_true_eq] at counted ⊢
    obtain ⟨leased, -, worker⟩ := kept.leased counted.1
    exact ⟨leased, (tally (.refl j') worker).symm.trans counted.2⟩
  have before : (j.tasks.countP fun u => u.state = .leased && p j' u) = leasedIn p j :=
    List.countP_congr fun u _ => by rw [tally h.evolves rfl]
  have one : (if (t'.state = .leased && p j' t') = true then 1 else 0) ≤ if p j' t' then 1 else 0 := by
    cases p j' t' <;> simp
    split_ifs <;> omega
  rw [List.countP_set inside, before] at others
  omega

end

namespace Board
variable {lib : Lib} {q : Quota} {sees : Job → Bool} {p : Job → Task → Bool} {tr : Trace} {js js' : List Job} {op : Op}
  {resp : Resp}

theorem countTasks_expire_le (tally : Tally p) (inv : Inv lib tr js) (now : Time) :
    countTasks p (expire lib sees now js) ≤ countTasks p js :=
  Lists.sum_map_le_of_forall₂ (fun h => h.leasedIn_le tally) (expire_keeps inv.ok now)

theorem Step.countTasks_le (tally : Tally p) (inv : Inv lib tr js) (step : Step lib q sees js op resp js')
    (other : ∀ l, resp ≠ .lease l) : countTasks p js' ≤ countTasks p js := by
  obtain ⟨old, new, rfl, advances, adds⟩ := step.advances inv
  have kept : countTasks p old ≤ countTasks p js := by
    refine Lists.sum_map_le_of_forall₂ (fun {j j'} h =>
      leasedIn_le tally h.evolves (h.moved.imp fun t t' moved leased => ?_)) advances
    cases moved with
    | kept kept _ => exact ⟨(kept.leased leased).1, (kept.leased leased).2.2⟩
    | leased _ hresp => exact absurd hresp (other _)
    | committed _ _ _ commit =>
      obtain ⟨-, -, -, -, -, -, -, ⟨-, finished⟩ | ⟨-, finished⟩⟩ :=
        applyCommit_ok commit <;> rw [finished] at leased <;> cases leased
  cases adds with
  | none => rwa [List.append_nil]
  | created =>
    rw [countTasks_eq, List.map_append, List.sum_append, ← countTasks_eq, List.map_singleton, List.sum_singleton,
      leasedIn_eq_zero]
    · exact kept
    · rintro ⟨t, ht, leased⟩
      exact (buildJob_unstarted _ _ _ _ ht).2.2 leased

theorem Step.countTasks_lease_le (tally : Tally p) (inv : Inv lib tr js) {l : Lease}
    (step : Step lib q sees js op (.lease l) js') :
    ∃ w now attempt j i t, op = .lease w now attempt ∧ Leasable q sees (expire lib sees now js) w j i t ∧
      countTasks p js' ≤ countTasks p (expire lib sees now js) + if p j (leaseTask t attempt.text w.id now) then 1
      else 0 := by
  cases step with
  | leased w now attempt j i t leasable =>
    have spec := leasable.replaces inv attempt
    refine ⟨w, now, attempt, j, i, t, rfl, leasable, ?_⟩
    refine Keyed.sum_update_le (inv.expire now).ids leasable.mem spec.evolves.id ?_
    rw [← tally spec.evolves rfl]
    exact spec.leasedIn_le tally leasable.task

/-! ### What a store counts -/

/-- The store sees every job that has a leased task. -/
def Covered (sees : Job → Bool) (js : List Job) : Prop := ∀ j ∈ js, j.working → sees j = true

instance (sees : Job → Bool) (js : List Job) : Decidable (Covered sees js) :=
  inferInstanceAs (Decidable (∀ j ∈ js, j.working → sees j = true))

theorem Covered.countTasks_filter (covered : Covered sees js) : countTasks p (js.filter sees) = countTasks p js := by
  refine Lists.sum_map_filter fun j hj unseen => leasedIn_eq_zero fun working => ?_
  rw [covered j hj working] at unseen
  cases unseen

end Board

theorem JobOK.going {lib : Lib} {j : Job} (ok : JobOK lib j) (occupies : j.occupies = true) :
    j.canceled = false ∧ ∀ t ∈ j.tasks, t.state ≠ .failed := by
  have status := ok.status
  cases hc : j.canceled with
  | true => rw [hc, if_pos rfl] at status; simp [Job.occupies, status] at occupies
  | false =>
    refine ⟨rfl, fun t ht failed => ?_⟩
    rw [hc, if_neg Bool.false_ne_true, jobStatus_failed_iff.mpr ⟨t, ht, failed⟩] at status
    simp [Job.occupies, status] at occupies

theorem requeued_failed {t : Task} {now : Time} {canceled : Bool}
    (h : ((requeue t now canceled).getD t).state = .failed) :
    t.state = .failed := by
  cases hr : requeue t now canceled with
  | none => rw [hr] at h; exact h
  | some t' =>
    rw [hr] at h
    unfold requeue at hr
    split_ifs at hr
    all_goals
      obtain rfl := Option.some.inj hr
      cases h

theorem expireJob_occupies {lib : Lib} {now : Time} {j : Job} (ok : JobOK lib j) (occupies : j.occupies = true)
    {t : Task} (ht : t ∈ (expireJob lib now j).1.tasks) (live : Live t) : (expireJob lib now j).1.occupies = true := by
  obtain ⟨uncanceled, unfailed⟩ := ok.going occupies
  have keeps := expireJob_spec ok now
  revert ht keeps
  unfold expireJob
  cases h : failDeadline lib now j with
  | some j' =>
    intro ht _
    unfold failDeadline at h
    split_ifs at h
    obtain rfl := Option.some.inj h
    obtain ⟨u, -, rfl⟩ := List.mem_map.mp ht
    exact absurd live (not_live_of_terminal (deadlineTask_over u))
  | none =>
    dsimp only
    split_ifs with unchanged
    · exact fun _ _ => occupies
    · intro ht keeps
      refine keeps.ok.occupies_of_live uncanceled (fun u' hu' failed => ?_) ht live
      obtain ⟨u, hu, settling⟩ := Lists.forall₂_mem_right (settle_settling _) hu'
      obtain ⟨v, hv, rfl⟩ := List.mem_map.mp hu
      exact unfailed v hv (requeued_failed (settling.failed failed))

theorem StoreKind.expire_covered {lib : Lib} (k : StoreKind) {js : List Job} (ok : ∀ j ∈ js, JobOK lib j)
    (covered : Board.Covered k.sees js) (now : Time) : Board.Covered k.sees (Board.expire lib k.sees now js) := by
  cases k with
  | memory => exact fun _ _ _ => rfl
  | postgres =>
    intro j' hj' working
    obtain ⟨j, hj, rfl⟩ := List.mem_map.mp hj'
    split_ifs at working ⊢ with seen
    · obtain ⟨t, ht, leased⟩ := working
      exact expireJob_occupies (ok j hj) seen ht (.inr leased)
    · exact covered j hj working

/-! ### Runs -/

theorem Worker.slotLimit_le (w : Worker) : w.slotLimit ≤ maxSlots := by
  unfold Worker.slotLimit
  split_ifs with few many
  · decide
  · exact le_rfl
  · exact not_lt.mp many

namespace Board
variable {lib : Lib} {q : Quota} {sees : Job → Bool} {p : Job → Task → Bool} {tr : Trace} {js js' : List Job} {op : Op}
  {resp : Resp}

/-- A bound on a count stays, when a lease takes a task that counts only below it. -/
theorem Step.bounded (tally : Tally p) (inv : Inv lib tr js) (step : Step lib q sees js op resp js') {n : Int}
    (bound : (countTasks p js : Int) ≤ n)
    (room : ∀ {w now attempt j i t}, op = .lease w now attempt → Leasable q sees (expire lib sees now js) w j i t →
      p j (leaseTask t attempt.text w.id now) = true → (countTasks p (expire lib sees now js) : Int) < n) :
    (countTasks p js' : Int) ≤ n := by
  by_cases lease : ∃ l, resp = .lease l
  · obtain ⟨l, rfl⟩ := lease
    obtain ⟨w, now, attempt, j, i, t, rfl, leasable, le⟩ := step.countTasks_lease_le tally inv
    have expired : countTasks p (expire lib sees now js) ≤ countTasks p js := countTasks_expire_le tally inv now
    split_ifs at le with counted
    · have := room rfl leasable counted
      omega
    · omega
  · have := step.countTasks_le tally inv fun l hl => lease ⟨l, hl⟩
    omega

structure Within (q : Quota) (js : List Job) : Prop where
  workers : ∀ w, (countLeased js w : Int) ≤ maxSlots
  services : ∀ service, (leasedOf js service : Int) ≤ q.normalized.leasedTasks

end Board

namespace StoreKind
variable {lib : Lib} {q : Quota} {tr : Trace} {js js' : List Job} {op : Op} {resp : Resp}

/-- A `Lease` comes only while the store sees every job that has a leased task. -/
def Counted (k : StoreKind) (js : List Job) : Op → Prop
  | .lease _ _ _ => Board.Covered k.sees js
  | _ => True

instance (k : StoreKind) (js : List Job) : DecidablePred (k.Counted js)
  | .lease _ _ _ => inferInstanceAs (Decidable (Board.Covered k.sees js))
  | .create _ _ _ | .get _ | .list _ _ | .heartbeat _ _ _ _ | .commit _ _ _ _ | .requeueExpired _ | .cancel _ =>
    inferInstanceAs (Decidable True)

variable (k : StoreKind)

theorem countTasks_seen {p : Job → Task → Bool} (inv : Board.Inv lib tr js) {w : Worker} {now : Time} {attempt : ID}
    (counted : k.Counted js (.lease w now attempt)) :
    countTasks p ((Board.expire lib k.sees now js).filter k.sees) = countTasks p (Board.expire lib k.sees now js) :=
  (k.expire_covered inv.ok counted now).countTasks_filter

theorem within_step (inv : Board.Inv lib tr js) (within : Board.Within q js) (counted : k.Counted js op)
    (step : Board.Step lib q k.sees js op resp js') : Board.Within q js' := by
  refine ⟨fun v => ?_, fun service => ?_⟩
  · refine step.bounded (tally_worker v) inv (within.workers v) fun {w now attempt j i t} hop leasable same => ?_
    subst hop
    have slot := leasable.slot
    have limit := w.slotLimit_le
    obtain rfl : w.id = v := of_decide_eq_true same
    rw [countLeased, k.countTasks_seen inv counted] at slot
    exact slot.trans_le limit
  · refine step.bounded (tally_service service) inv (within.services service)
      fun {w now attempt j i t} hop leasable same => ?_
    subst hop
    have share := leasable.share
    obtain rfl : j.service = service := of_decide_eq_true same
    rw [leasedOf, k.countTasks_seen inv counted] at share
    exact share

end StoreKind

/-- In every run in which a `Lease` comes only while the store sees every job that has a leased task, no worker and
    no service ever holds more than its bound. -/
theorem capacity {lib : Lib} {q : Quota} {k : StoreKind} {tr : Trace} {s : (k.machine lib q).State}
    (run : (k.within lib q k.Counted).Run FreshIDs tr s) :
    (∀ w now attempt l s', FreshIDs tr (.lease w now attempt) (.lease l) →
        (k.within lib q k.Counted).Step s (.lease w now attempt) (.lease l) s' →
        (countLeased (k.jobs lib q s') w.id : Int) ≤ w.slotLimit) ∧
      (∀ w, (countLeased (k.jobs lib q s) w : Int) ≤ maxSlots) ∧
      ∀ service, (leasedOf (k.jobs lib q s) service : Int) ≤ q.normalized.leasedTasks := by
  have within : Board.Within q (k.jobs lib q s) := by
    refine run.inv_restrict (P := fun _ s => Board.Within q (k.jobs lib q s)) ?_ ?_
    · rw [k.jobs_init]
      exact ⟨fun _ => by simp [countLeased, countTasks, maxSlots], fun _ => q.normalized_pos.2.le⟩
    · intro tr s op resp s' run within fresh counted step
      exact k.within_step (StoreKind.inv_of_run id run) within counted (StoreKind.board_step id run fresh step)
  refine ⟨fun w now attempt l s' fresh step => ?_, within.workers, within.services⟩
  have inv := StoreKind.inv_of_run id run.of_restrict
  have board := StoreKind.board_step id run.of_restrict fresh step.2
  obtain ⟨_, _, _, j, i, t, eq, leasable, le⟩ := board.countTasks_lease_le (tally_worker w.id) inv
  obtain ⟨rfl, rfl, rfl⟩ := Op.lease.inj eq
  have slot := leasable.slot
  rw [countLeased, k.countTasks_seen inv step.1] at slot
  rw [countLeased]
  split_ifs at le <;> omega

namespace Sample

def leaseMore : Op := .lease { id := "w" } 7000000 otherAttempt

def overbooked : List Op := [create, lease, cancel, createOther]

end Sample

open Sample in
theorem capacity_sample :
    countLeased (StoreKind.jobs Lib.plain {} .postgres (play .postgres [create, lease, createOther]).2) "w" = 1 ∧
      (countLeased (StoreKind.jobs Lib.plain {} .postgres (play .postgres [create, lease, createOther]).2) "w" :
        Int) ≤ maxSlots :=
  ⟨by decide +kernel, (capacity (StoreKind.postgres.play_run (C := StoreKind.postgres.Counted) (by decide +kernel))).2.1
    "w"⟩

open Sample in
/-- `Postgres` counts only unfinished jobs: a worker with one slot gets a second task while the task of a canceled job
    is still leased to it. -/
theorem capacity_fails :
    (StoreKind.postgres.machine Lib.plain {}).Run FreshIDs (play .postgres overbooked).1 (play .postgres overbooked).2 ∧
      ∃ l s', FreshIDs (play .postgres overbooked).1 leaseMore (.lease l) ∧
        (StoreKind.postgres.machine Lib.plain {}).Step (play .postgres overbooked).2 leaseMore (.lease l) s' ∧
        ¬(countLeased (StoreKind.jobs Lib.plain {} .postgres s') "w" : Int) ≤ Worker.slotLimit { id := "w" } := by
  refine ⟨Sample.run .postgres overbooked (by decide +kernel), ?_⟩
  have step := StoreKind.postgres.call_step (play .postgres overbooked).2 leaseMore
  have fresh : FreshIDs (play .postgres overbooked).1 leaseMore
      (StoreKind.postgres.call Lib.plain {} (play .postgres overbooked).2 leaseMore).2 := by decide +kernel
  obtain ⟨l, returned, -⟩ : ∃ l, (StoreKind.postgres.call Lib.plain {} (play .postgres overbooked).2 leaseMore).2 =
    .lease l ∧
      true = true := Resp.exists_lease (by decide +kernel)
  rw [returned] at step fresh
  exact ⟨l, _, fresh, step, by decide +kernel⟩

end Aquila.Jobs

import Aquila.Theorems.Jobs.Board

/-! What the calls find in a list of jobs: the task to lease, the task with an id, and what the admission
    checks count. -/

namespace Aquila.Jobs
variable {wantJob tid : String} {q : Quota} {j : Job} {t : Task} {walk : List Job}

/-! ### The task to lease -/

/-- A choice of `pickReady` with the job in place of its index. -/
structure Choice where
  job : Job
  task : Nat
  leased : Nat

/-- `pickJob` without indices. -/
def chooseJob (all : List Job) (wantJob : String) (q : Quota) (best : Option Choice) (j : Job) : Option Choice :=
  if wantJob ≠ "" ∧ j.id ≠ wantJob then best
  else if j.canceled ∨ j.status = .canceled then best
  else
    let n := leasedOf all j.service
    if q.leasedTasks ≤ n then best
    else if best.any fun b => b.leased ≤ n then best
    else match j.tasks.findIdx? fun t => t.state = .ready && !t.operator with
      | some ti => some { job := j, task := ti, leased := n }
      | none => best

/-- `pickReady` without indices. -/
def choose (all : List Job) (wantJob : String) (q : Quota) : Option Choice :=
  all.foldl (chooseJob all wantJob q.normalized) none

/-- An index of `all` stands for a job. -/
inductive Picks (all : List Job) : Option Pick → Option Choice → Prop
  | none : Picks all none none
  | some {p : Pick} {c : Choice} : all[p.job]? = some c.job → p.task = c.task → p.leased = c.leased →
      Picks all (some p) (some c)

theorem pickJob_picks {all : List Job} {best : Option Pick} {best' : Option Choice}
    (h : Picks all best best') {ji : Nat} (hj : all[ji]? = some j) :
    Picks all (pickJob all wantJob q best j ji) (chooseJob all wantJob q best' j) := by
  have same : (best.any fun b => b.leased ≤ leasedOf all j.service) = best'.any fun b =>
    b.leased ≤ leasedOf all j.service := by
    cases h with
    | none => rfl
    | some _ _ leased => simp [leased]
  unfold pickJob chooseJob
  dsimp only
  rw [same]
  split_ifs
  · exact h
  · exact h
  · exact h
  · exact h
  · cases j.tasks.findIdx? fun t => t.state = .ready && !t.operator with
    | none => exact h
    | some ti => exact .some hj rfl rfl

/-- `pickReady` makes the choice of `choose`. -/
theorem pickReady_picks (all : List Job) (wantJob : String) (q : Quota) :
    Picks all (pickReady all wantJob q) (choose all wantJob q) := by
  have fold : ∀ (rest : List Job) (k : Nat) (best : Option Pick) (best' : Option Choice), Picks all best best' →
      (∀ i, rest[i]? = all[k + i]?) →
      Picks all ((rest.zipIdx k).foldl (fun best x => pickJob all wantJob q.normalized best x.1 x.2) best)
        (rest.foldl (chooseJob all wantJob q.normalized) best') := by
    intro rest
    induction rest with
    | nil => exact fun _ _ _ h _ => h
    | cons j rest ih =>
      intro k best best' h at_
      refine ih (k + 1) _ _ (pickJob_picks h ?_) fun i => ?_
      · simpa using (at_ 0).symm
      · have := at_ (i + 1)
        rwa [List.getElem?_cons_succ, Nat.add_comm i 1, ← Nat.add_assoc] at this
  exact fold all 0 none none .none fun i => by rw [Nat.zero_add]

structure Choice.Good (all : List Job) (q : Quota) (c : Choice) : Prop where
  mem : c.job ∈ all
  task : ∃ t, c.job.tasks[c.task]? = some t ∧ t.state = .ready ∧ t.operator = false
  canceled : c.job.canceled = false
  share : (leasedOf all c.job.service : Int) < q.leasedTasks

theorem chooseJob_good {all : List Job} {best : Option Choice} (hj : j ∈ all)
    (good : ∀ c ∈ best, c.Good all q) : ∀ c ∈ chooseJob all wantJob q best j, c.Good all q := by
  intro c hc
  unfold chooseJob at hc
  dsimp only at hc
  split_ifs at hc with other canceled full worse
  · exact good c hc
  · exact good c hc
  · exact good c hc
  · exact good c hc
  · cases found : j.tasks.findIdx? fun t => t.state = .ready && !t.operator with
    | none => rw [found] at hc; exact good c hc
    | some ti =>
      rw [found] at hc
      obtain rfl := Option.some.inj hc
      obtain ⟨inside, ready, -⟩ := List.findIdx?_eq_some_iff_getElem.mp found
      simp only [Bool.and_eq_true, decide_eq_true_eq, Bool.not_eq_true'] at ready
      refine ⟨hj, ⟨_, List.getElem?_eq_getElem inside, ready.1, ready.2⟩, ?_, by simpa using full⟩
      simpa using (not_or.mp canceled).1

theorem choose_good {all : List Job} {c : Choice} (h : choose all wantJob q = some c) :
    c.Good all q.normalized := by
  have fold : ∀ (rest : List Job) (best : Option Choice), (∀ j ∈ rest, j ∈ all) →
    (∀ c ∈ best, c.Good all q.normalized) →
      ∀ c ∈ rest.foldl (chooseJob all wantJob q.normalized) best, c.Good all q.normalized := by
    intro rest
    induction rest with
    | nil => exact fun _ _ good => good
    | cons j rest ih =>
      intro best sub good
      exact ih _ (fun j hj => sub j (List.mem_cons_of_mem _ hj)) (chooseJob_good (sub j List.mem_cons_self) good)
  exact fold all none (fun _ hj => hj) (by simp) c h

theorem pickReady_good {all : List Job} {pick : Pick}
    (h : pickReady all wantJob q = some pick) (hj : all[pick.job]? = some j) (ht : j.tasks[pick.task]? = some t) :
    j ∈ all ∧ t.state = .ready ∧ t.operator = false ∧ j.canceled = false ∧
      (leasedOf all j.service : Int) < q.normalized.leasedTasks := by
  have picks := pickReady_picks all wantJob q
  rw [h] at picks
  generalize hc : choose all wantJob q = chosen at picks
  cases picks with
  | @some _ c job task _ =>
    obtain ⟨mem, ⟨t', ht', ready, operator⟩, canceled, share⟩ := choose_good hc
    obtain rfl := Option.some.inj (hj.symm.trans job)
    rw [← task] at ht'
    obtain rfl := Option.some.inj (ht.symm.trans ht')
    exact ⟨mem, ready, operator, canceled, share⟩

theorem pickReady_of_none {all : List Job} (h : choose all wantJob q = none) :
    pickReady all wantJob q = none := by
  have picks := pickReady_picks all wantJob q
  rw [h] at picks
  generalize pickReady all wantJob q = picked at picks
  cases picks
  rfl

theorem pickReady_of_some {all : List Job} {c : Choice} (h : choose all wantJob q = some c) :
    ∃ pick t, pickReady all wantJob q = some pick ∧ all[pick.job]? = some c.job ∧ pick.task = c.task ∧
      c.job.tasks[c.task]? = some t ∧ t.state = .ready := by
  have picks := pickReady_picks all wantJob q
  obtain ⟨-, ⟨t, ht, ready, -⟩, -⟩ := choose_good h
  rw [h] at picks
  generalize pickReady all wantJob q = picked at picks
  cases picks with
  | @some pick _ job task _ => exact ⟨pick, t, rfl, job, task, ht, ready⟩

/-! ### The task with an id -/

theorem normalizeIDs_ok {taskID attemptID aid : String} (h : normalizeIDs taskID attemptID = .ok (tid, aid)) :
    normalizeID taskID = some tid ∧ normalizeID attemptID = some aid := by
  unfold normalizeIDs at h
  cases ht : normalizeID taskID with
  | none => simp [ht] at h
  | some tid' =>
    cases ha : normalizeID attemptID with
    | none => simp [ht, ha] at h
    | some aid' =>
      simp only [ht, ha, Except.ok.injEq, Prod.mk.injEq] at h
      exact ⟨by rw [h.1], by rw [h.2]⟩

theorem findTask_found {i : Nat}
    (h : findTask walk tid = some (j, i, t)) : j ∈ walk ∧ j.tasks[i]? = some t ∧ t.id = tid := by
  obtain ⟨j', hj', found⟩ := List.exists_of_findSome?_eq_some h
  obtain ⟨i', hi', found⟩ := Option.bind_eq_some_iff.mp found
  obtain ⟨t', ht', eq⟩ := Option.map_eq_some_iff.mp found
  obtain ⟨rfl, rfl, rfl⟩ : j' = j ∧ i' = i ∧ t' = t := by simpa using eq
  obtain ⟨inside, id, -⟩ := List.findIdx?_eq_some_iff_getElem.mp hi'
  rw [List.getElem?_eq_getElem inside] at ht'
  exact ⟨hj', by rw [List.getElem?_eq_getElem inside, ht'], by rw [← Option.some.inj ht']; simpa using id⟩

theorem Board.Found.of_findTask {sees : Job → Bool} {js : List Job} {i : Nat}
    (h : findTask walk tid = some (j, i, t)) (seen : ∀ {x}, x ∈ walk → x ∈ js ∧ sees x = true) :
    Board.Found sees js tid j i t := by
  obtain ⟨hj, ht, id⟩ := findTask_found h
  exact ⟨(seen hj).1, (seen hj).2, ht, id⟩

theorem findTask_eq_none_iff :
    findTask walk tid = none ↔ ∀ j ∈ walk, ∀ t ∈ j.tasks, t.id ≠ tid := by
  unfold findTask
  rw [List.findSome?_eq_none_iff]
  refine forall₂_congr fun j _ => ⟨fun none_ t ht same => ?_, fun absent => ?_⟩
  · cases found : j.tasks.findIdx? (·.id = tid) with
    | none => exact absurd same (by simpa using List.findIdx?_eq_none_iff.mp found t ht)
    | some i =>
      obtain ⟨inside, -⟩ := List.findIdx?_eq_some_iff_getElem.mp found
      simp [found, List.getElem?_eq_getElem inside] at none_
  · rw [List.findIdx?_eq_none_iff.mpr fun t ht => by simpa using absent t ht]
    rfl

/-! ### Counts -/

section
variable {lib : Lib} {js all : List Job} {c : Job}

theorem gatewayBusy_active (h : all.Perm (js.filter Job.occupies)) : gatewayBusy lib all c = gatewayBusy lib js c := by
  unfold gatewayBusy
  dsimp only
  rw [h.any_eq, List.any_filter]
  congr 1
  funext j
  cases j.occupies <;> simp

theorem overActive_active (h : all.Perm (js.filter Job.occupies)) (q : Quota) :
    overActive all c q = overActive js c q := by
  unfold overActive
  dsimp only
  rw [h.countP_eq, List.countP_filter]
  congr 4
  funext j
  cases j.occupies <;> simp

theorem countTasks_perm {p : Job → Task → Bool} (h : all.Perm js) : countTasks p all = countTasks p js :=
  (h.map _).sum_eq

end

end Aquila.Jobs

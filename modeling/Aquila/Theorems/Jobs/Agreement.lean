import Aquila.Theorems.Jobs.Capacity

/-! When the two stores are one machine: what a call may meet so that both answer alike and hold the same jobs. -/

namespace Aquila.Jobs

/-! ### The condition -/

/-- The order of creation. -/
def Job.older (a b : Job) : Prop := a.created < b.created ∨ a.created = b.created ∧ a.id ≤ b.id

instance : DecidableRel Job.older := fun _ _ => inferInstanceAs (Decidable (_ ∨ _))

namespace Board
variable (lib : Lib) (q : Quota) (js : List Job)

/-- No finished job has a lease that has expired. -/
def Quiet (now : Time) : Prop := ∀ j ∈ js, j.occupies = false → (expireJob lib now j).2 = 0

/-- No finished job has a task that may run. -/
def Retired : Prop := ∀ j ∈ js, (∃ t ∈ j.tasks, Live t) → j.occupies = true

/-- Only one job has a task with the id, and that job is not finished. -/
def Sole (taskID : String) : Prop :=
  ∀ j ∈ js, ∀ t ∈ j.tasks, normalizeID taskID = some t.id →
    j.occupies = true ∧ ∀ j' ∈ js, ∀ t' ∈ j'.tasks, t'.id = t.id → j' = j

/-- The new job is the latest, and it is admitted unless there is nothing to expire. -/
def Admits (opts : CreateOpts) (id : ID) (clock : CreateClock) : Prop :=
  (∀ j ∈ js, j.older (buildJob lib opts id.text clock.build)) ∧ Quiet lib js clock.expire ∧
    ((∀ j ∈ js, (expireJob lib clock.expire j).2 = 0) ∨
      gatewayBusy lib (expire lib Job.occupies clock.expire js) (buildJob lib opts id.text clock.build) = false ∧
        overActive (expire lib Job.occupies clock.expire js) (buildJob lib opts id.text clock.build) q = false)

/-- What a call may meet. -/
def Agreeable : Op → Prop
  | .create opts id clock => validateCreate lib clock.validate opts = none → Admits lib q js opts id clock
  | .lease w _ _ => w.wantJob.isOk = true ∧ Retired js
  | .heartbeat taskID _ _ _ => Sole js taskID
  | .commit taskID _ _ _ => Sole js taskID
  | .requeueExpired now => Quiet lib js now
  | .get _ | .list _ _ | .cancel _ => True

instance (now : Time) : Decidable (Quiet lib js now) :=
  inferInstanceAs (Decidable (∀ j ∈ js, j.occupies = false → (expireJob lib now j).2 = 0))

instance : Decidable (Retired js) :=
  inferInstanceAs (Decidable (∀ j ∈ js, (∃ t ∈ j.tasks, Live t) → j.occupies = true))

instance (taskID : String) : Decidable (Sole js taskID) :=
  inferInstanceAs (Decidable (∀ j ∈ js, ∀ t ∈ j.tasks, normalizeID taskID = some t.id →
    j.occupies = true ∧ ∀ j' ∈ js, ∀ t' ∈ j'.tasks, t'.id = t.id → j' = j))

instance (opts : CreateOpts) (id : ID) (clock : CreateClock) : Decidable (Admits lib q js opts id clock) :=
  inferInstanceAs (Decidable (_ ∧ _ ∧ (_ ∨ _ ∧ _)))

instance : DecidablePred (Agreeable lib q js)
  | .create opts id clock =>
    inferInstanceAs (Decidable (validateCreate lib clock.validate opts = none → Admits lib q js opts id clock))
  | .lease w _ _ => inferInstanceAs (Decidable (w.wantJob.isOk = true ∧ Retired js))
  | .heartbeat taskID _ _ _ => inferInstanceAs (Decidable (Sole js taskID))
  | .commit taskID _ _ _ => inferInstanceAs (Decidable (Sole js taskID))
  | .requeueExpired now => inferInstanceAs (Decidable (Quiet lib js now))
  | .get _ | .list _ _ | .cancel _ => inferInstanceAs (Decidable True)

variable {lib q js} {now : Time}

/-! ### What both stores find -/

theorem Quiet.expire_eq (quiet : Quiet lib js now) :
    expire lib (fun _ => true) now js = expire lib Job.occupies now js := by
  refine List.map_congr_left fun j hj => ?_
  rw [if_pos rfl]
  split_ifs with occupies
  · rfl
  · exact expireJob_idle (quiet j hj (Bool.not_eq_true _ ▸ occupies))

theorem expire_of_idle (idle : ∀ j ∈ js, (expireJob lib now j).2 = 0) (sees : Job → Bool) :
    expire lib sees now js = js := by
  refine (List.map_congr_left fun j hj => ?_).trans (List.map_id js)
  split_ifs
  · exact expireJob_idle (idle j hj)
  · rfl

theorem Retired.quiet (ok : ∀ j ∈ js, JobOK lib j) (retired : Retired js) (now : Time) : Quiet lib js now := by
  intro j hj finished
  have ended : j.ended = true := by rw [(ok j hj).ended_eq, finished]; rfl
  have none_ : (j.tasks.countP fun t => (requeue t now j.canceled).isSome) = 0 := by
    refine List.countP_eq_zero.mpr fun t ht some_ => ?_
    have unleased : t.state ≠ .leased := fun leased => by
      rw [retired j hj ⟨t, ht, .inr leased⟩] at finished
      cases finished
    rw [requeue, if_pos unleased] at some_
    cases some_
  unfold expireJob failDeadline
  rw [if_pos (.inr ended)]
  simp only [none_, if_true]

theorem Retired.covered (retired : Retired js) : Covered Job.occupies js :=
  fun j hj ⟨t, ht, leased⟩ => retired j hj ⟨t, ht, .inr leased⟩

theorem Retired.expire (ok : ∀ j ∈ js, JobOK lib j) (retired : Retired js) (now : Time) :
    Retired (expire lib Job.occupies now js) := by
  rintro j' hj' ⟨t, ht, live⟩
  obtain ⟨j, hj, rfl⟩ := List.mem_map.mp hj'
  split_ifs at ht ⊢ with occupies
  · exact expireJob_occupies (ok j hj) occupies ht live
  · exact retired j hj ⟨t, ht, live⟩

theorem Retired.chooseJob_eq (retired : Retired js) {j : Job} (hj : j ∈ js) (finished : j.occupies = false)
    (all : List Job)
    (want : String) (q : Quota) (best : Option Choice) : chooseJob all want q best j = best := by
  have none_ : (j.tasks.findIdx? fun t => t.state = .ready && !t.operator) = none := by
    refine List.findIdx?_eq_none_iff.mpr fun t ht => ?_
    have unready : t.state ≠ .ready := fun ready => by
      rw [retired j hj ⟨t, ht, .inl ready⟩] at finished
      cases finished
    simp [unready]
  unfold chooseJob
  simp only [none_, ite_self]

theorem Retired.choose_filter (retired : Retired js) (want : String) (q : Quota) :
    choose (js.filter Job.occupies) want q = choose js want q := by
  have counts : ∀ service, leasedOf (js.filter Job.occupies) service = leasedOf js service :=
    fun _ => retired.covered.countTasks_filter
  have same : chooseJob (js.filter Job.occupies) want q.normalized = chooseJob js want q.normalized := by
    funext best j
    simp only [chooseJob, counts]
  rw [choose, same, List.foldl_filter, choose]
  refine List.foldl_ext _ _ _ fun best j hj => ?_
  split_ifs with occupies
  · rfl
  · exact (retired.chooseJob_eq hj (Bool.not_eq_true _ ▸ occupies) js want q.normalized best).symm

end Board

theorem Board.Sole.findTask_eq {lib : Lib} {tr : Trace} {js walk active : List Job} {taskID tid : String}
    (sole : Board.Sole js taskID) (normal : normalizeID taskID = some tid) (inv : Board.Inv lib tr js)
    (all : ∀ j, j ∈ walk ↔ j ∈ js) (some_ : ∀ j, j ∈ active ↔ j ∈ js ∧ j.occupies = true) :
    findTask walk tid = findTask active tid := by
  cases found : findTask walk tid with
  | none =>
    have absent := findTask_eq_none_iff.mp found
    exact (findTask_eq_none_iff.mpr fun j hj => absent j ((all j).mpr ((some_ j).mp hj).1)).symm
  | some jit =>
    obtain ⟨j, i, t⟩ := jit
    obtain ⟨hj, ht, rfl⟩ := findTask_found found
    have stored := (all j).mp hj
    obtain ⟨occupies, only⟩ := sole j stored t (List.mem_of_getElem? ht) normal
    cases found' : findTask active t.id with
    | none => exact absurd rfl (findTask_eq_none_iff.mp found' j ((some_ j).mpr ⟨stored, occupies⟩) t
        (List.mem_of_getElem? ht))
    | some jit' =>
      obtain ⟨j', i', t'⟩ := jit'
      obtain ⟨hj', ht', same⟩ := findTask_found found'
      obtain rfl := only j' ((some_ j').mp hj').1 t' (List.mem_of_getElem? ht') same
      obtain rfl := inv.index_eq stored ht' ht same
      rw [Option.some.inj (ht'.symm.trans ht)]

/-! ### The calls -/

/-- Both stores hold the same jobs, in the order of their creation. -/
structure Agree (m : Memory) (p : Postgres) : Prop where
  memory : Memory.Rep m
  postgres : Postgres.Rep p
  jobs : m.byID = p.jobs
  order : p.jobs.Pairwise Job.older

/-- The same answer, and the same jobs afterwards. -/
def Same (a : Memory × Resp) (b : Postgres × Resp) : Prop := a.2 = b.2 ∧ a.1.byID = b.1.jobs

theorem Same.of_read {m : Memory} {p : Postgres} (jobs : m.byID = p.jobs) {a b : Resp} (answer : a = b) :
    Same (m, a) (p, b) :=
  ⟨answer, jobs⟩

theorem Evolves.older {a a' b b' : Job} (h : Evolves a a') (h' : Evolves b b') (older : a.older b) : a'.older b' := by
  unfold Job.older
  rw [h.created, h.id, h'.created, h'.id]
  exact older

theorem Postgres.lockJobs_eq {lib : Lib} {tr : Trace} {p : Postgres} (rep : Postgres.Rep p)
    (inv : Board.Inv lib tr p.jobs)
    (order : p.jobs.Pairwise Job.older) : Postgres.lockJobs lib p = p.jobs.filter Job.occupies := by
  have rows : p.rows.Pairwise Postgres.Row.older := by
    refine (List.pairwise_map.mp order).imp_of_mem fun {a b} ha hb older => ?_
    unfold Row.older
    rw [(rep a ha).created, (rep a ha).id, (rep b hb).created, (rep b hb).id]
    exact older
  rw [← active_rows rep inv, lockJobs, (rows.filter _).insertionSort_eq]

theorem Postgres.find_jobs {lib : Lib} {tr : Trace} {p : Postgres} (rep : Postgres.Rep p)
    (inv : Board.Inv lib tr p.jobs)
    (id : String) : Postgres.find lib p id = Keyed.get Job.id p.jobs id := by
  cases found : find lib p id with
  | none =>
    have absent := Keyed.get_eq_none_iff.mp (Option.map_eq_none_iff.mp found)
    rw [rep.map_id] at absent
    exact (Keyed.get_eq_none_iff.mpr absent).symm
  | some j =>
    obtain ⟨mem, rfl⟩ := find_eq rep inv found
    exact (Keyed.get_of_mem inv.ids mem).symm

namespace Agree
variable {lib : Lib} {q : Quota} {tr : Trace} {m : Memory} {p : Postgres} (agree : Agree m p)
  (inv : Board.Inv lib tr p.jobs)
include agree inv

theorem put_jobs {j j' : Job} (mem : j ∈ p.jobs) (evolves : Evolves j j') :
    (m.put j').byID = (p.updateJob j').jobs := by
  rw [(agree.memory.put (agree.jobs ▸ mem) evolves.id).2, (agree.postgres.update inv mem evolves).2, agree.jobs]

theorem expire_jobs {now : Time} (quiet : Board.Quiet lib p.jobs now) :
    (Memory.requeueExpired lib now m).1.byID = (Postgres.expireTx lib now p).1.jobs := by
  rw [Memory.requeueExpired_byID, (Postgres.expireTx_rep agree.postgres inv now).2, agree.jobs, quiet.expire_eq]

theorem get_same (raw : String) : Memory.get raw m = Postgres.get lib raw p := by
  unfold Memory.get Postgres.get
  cases normalizeID raw with
  | none => rfl
  | some id =>
    have found := Postgres.find_jobs agree.postgres inv id
    cases h : Keyed.get Job.id p.jobs id with
    | none => simp only [found, agree.jobs, h]
    | some j => simp only [found, agree.jobs, h]

theorem cancel_same (raw : String) : Same (Memory.cancel lib raw m) (Postgres.cancel lib raw p) := by
  unfold Memory.cancel Postgres.cancel
  cases normalizeID raw with
  | none => exact ⟨rfl, agree.jobs⟩
  | some id =>
    simp only [Postgres.find_jobs agree.postgres inv, agree.jobs]
    cases found : Keyed.get Job.id p.jobs id with
    | none => exact ⟨rfl, agree.jobs⟩
    | some j =>
      obtain ⟨mem, -⟩ := Keyed.get_eq_some found
      exact ⟨rfl, agree.put_jobs inv mem (applyCancel_spec (inv.ok j mem)).evolves⟩

theorem findTask_walk {walk : List Job} (perm : walk.Perm m.byID) {taskID attemptID tid aid : String}
    (sole : Board.Sole p.jobs taskID) (ids : normalizeIDs taskID attemptID = .ok (tid, aid)) :
    findTask walk tid = findTask (Postgres.lockJobs lib p) tid :=
  sole.findTask_eq (normalizeIDs_ok ids).1 inv (fun _ => agree.jobs ▸ perm.mem_iff)
    fun _ => Postgres.mem_lockJobs agree.postgres inv

theorem heartbeat_same {walk : List Job} (perm : walk.Perm m.byID) (taskID attemptID workerID : String) (now : Time)
    (sole : Board.Sole p.jobs taskID) :
    Same (Memory.heartbeat walk taskID attemptID workerID now m)
    (Postgres.heartbeat lib taskID attemptID workerID now p) := by
  unfold Memory.heartbeat Postgres.heartbeat
  cases ids : normalizeIDs taskID attemptID with
  | error e => exact ⟨rfl, agree.jobs⟩
  | ok both =>
    obtain ⟨tid, aid⟩ := both
    dsimp only
    rw [agree.findTask_walk inv perm sole ids]
    cases found : findTask (Postgres.lockJobs lib p) tid with
    | none => exact ⟨rfl, agree.jobs⟩
    | some jit =>
      obtain ⟨j, i, t⟩ := jit
      have at_ : Board.Found Job.occupies p.jobs tid j i t :=
        .of_findTask found (Postgres.mem_lockJobs agree.postgres inv).mp
      dsimp only
      cases renew : applyHeartbeat t aid workerID now with
      | error e => exact ⟨rfl, agree.jobs⟩
      | ok t' => exact ⟨rfl, agree.put_jobs inv at_.mem (heartbeat_spec (inv.ok j at_.mem) at_.task renew).evolves⟩

theorem commit_same {walk : List Job} (perm : walk.Perm m.byID) (taskID attemptID : String) (result : Plan.StepResult)
    (fail : String) (sole : Board.Sole p.jobs taskID) :
    Same (Memory.commit lib walk taskID attemptID result fail m)
    (Postgres.commit lib taskID attemptID result fail p) := by
  unfold Memory.commit Postgres.commit
  cases ids : normalizeIDs taskID attemptID with
  | error e => exact ⟨rfl, agree.jobs⟩
  | ok both =>
    obtain ⟨tid, aid⟩ := both
    dsimp only
    rw [agree.findTask_walk inv perm sole ids]
    cases found : findTask (Postgres.lockJobs lib p) tid with
    | none => exact ⟨rfl, agree.jobs⟩
    | some jit =>
      obtain ⟨j, i, t⟩ := jit
      have at_ : Board.Found Job.occupies p.jobs tid j i t :=
        .of_findTask found (Postgres.mem_lockJobs agree.postgres inv).mp
      dsimp only
      cases done : applyCommit t aid result fail with
      | error e => exact ⟨rfl, agree.jobs⟩
      | ok t' => exact ⟨rfl, agree.put_jobs inv at_.mem (commit_spec (inv.ok j at_.mem) at_.task done).evolves⟩

theorem list_same (limit : Int) (service : String) :
    .jobs (listJobs m.jobs limit service) = Postgres.list lib limit service p := by
  rw [agree.memory.jobs_eq, agree.jobs]
  unfold listJobs Postgres.list
  dsimp only
  generalize hw : (p.rows.filter fun r => clipService service = [] || r.payload.service = clipService service) = wanted
  have stored : ∀ r ∈ wanted, r ∈ p.rows := by
    subst hw
    exact fun r hr => List.mem_of_mem_filter hr
  have jobs : (p.jobs.filter fun j => clipService service = [] || j.service = clipService service) = wanted.map
    (·.payload) := by
    rw [← hw, Postgres.jobs, List.filter_map]
    rfl
  have sorted : (wanted.insertionSort Postgres.Row.newer).map (·.payload) =
    (wanted.map (·.payload)).insertionSort newer := by
    refine List.map_insertionSort _ _ _ _ fun a ha b hb => ?_
    unfold Postgres.Row.newer newer
    have copyA := agree.postgres a (stored a ha)
    have copyB := agree.postgres b (stored b hb)
    rw [copyA.created, copyA.id, copyB.created, copyB.id]
  rw [jobs, ← sorted, ← List.map_take]
  refine congrArg Resp.jobs (List.map_congr_left fun r hr => ?_)
  refine (Postgres.decodeJob_eq inv (stored r ?_)).symm
  exact (List.mem_insertionSort _).mp (List.mem_of_mem_take hr)

theorem requeueExpired_same (now : Time) (quiet : Board.Quiet lib p.jobs now) :
    Same ((Memory.requeueExpired lib now m).1, .count (Memory.requeueExpired lib now m).2)
      ((Postgres.expireTx lib now p).1, .count (Postgres.expireTx lib now p).2) := by
  refine ⟨congrArg Resp.count ?_, agree.expire_jobs inv quiet⟩
  have locked := Postgres.lockJobs_eq agree.postgres inv agree.order
  unfold Memory.requeueExpired Postgres.expireTx
  rw [agree.jobs, locked]
  dsimp only
  rw [List.map_map]
  exact (Lists.sum_map_filter fun j hj finished => quiet j hj finished).symm

theorem expired {now : Time} (quiet : Board.Quiet lib p.jobs now) :
    Agree (Memory.requeueExpired lib now m).1 (Postgres.expireTx lib now p).1 ∧
      Board.Inv lib tr (Postgres.expireTx lib now p).1.jobs := by
  obtain ⟨rep, jobs⟩ := Postgres.expireTx_rep agree.postgres inv now
  refine ⟨⟨agree.memory.requeueExpired (agree.jobs ▸ inv) now, rep, agree.expire_jobs inv quiet, ?_⟩,
    jobs ▸ inv.expire now⟩
  rw [jobs]
  exact Lists.pairwise_of_forall₂ (Board.expire_keeps inv.ok now) agree.order fun h h' => h.evolves.older h'.evolves

theorem create_same {opts : CreateOpts} {id : ID} {clock : CreateClock}
    (fresh : FreshIDs tr (.create opts id clock) (Memory.create lib q opts id clock m).2)
    (admits : validateCreate lib clock.validate opts = none → Board.Admits lib q p.jobs opts id clock) :
    Same (Memory.create lib q opts id clock m) (Postgres.create lib q opts id clock p) := by
  unfold Memory.create at fresh ⊢
  unfold Postgres.create
  cases valid : validateCreate lib clock.validate opts with
  | some e => exact ⟨rfl, agree.jobs⟩
  | none =>
    obtain ⟨-, quiet, admitted⟩ := admits valid
    obtain ⟨agree', inv'⟩ := agree.expired inv quiet
    have active := Postgres.lockJobs_perm agree'.postgres inv'
    have jobs : (Memory.requeueExpired lib clock.expire m).1.jobs = (Postgres.expireTx lib clock.expire p).1.jobs :=
      agree'.memory.jobs_eq.trans agree'.jobs
    have expired := (Postgres.expireTx_rep agree.postgres inv clock.expire).2
    -- a refused call keeps the expiry in one store and rolls it back in the other
    have refused : (gatewayBusy lib (Postgres.expireTx lib clock.expire p).1.jobs
      (buildJob lib opts id.text clock.build) = true ∨
        overActive (Postgres.expireTx lib clock.expire p).1.jobs (buildJob lib opts id.text clock.build) q = true) →
        (Memory.requeueExpired lib clock.expire m).1.byID = p.jobs := by
      intro finished
      rcases admitted with idle | ⟨free, share⟩
      · rw [agree'.jobs, expired, Board.expire_of_idle idle]
      · rw [expired, free, share] at finished
        rcases finished with h | h <;> cases h
    simp only [valid] at fresh ⊢
    rw [gatewayBusy_active active, overActive_active active]
    rw [jobs] at fresh ⊢
    split_ifs at fresh ⊢ with busy quota used
    · exact ⟨rfl, refused (.inl busy)⟩
    · exact ⟨rfl, refused (.inr quota)⟩
    · have unused := inv'.unused (fresh id.text (by simp [drawn]))
      rw [← agree'.postgres.map_id] at unused
      exact absurd used unused
    · have put : Keyed.put Job.id (Postgres.expireTx lib clock.expire p).1.jobs
        (buildJob lib opts id.text clock.build) =
          (Postgres.expireTx lib clock.expire p).1.jobs ++ [buildJob lib opts id.text clock.build] :=
        Keyed.put_of_not_mem (inv'.unused (fresh id.text (by simp [drawn])))
      refine ⟨rfl, ?_⟩
      simp only [Memory.put, agree'.jobs, put]
      simp [Postgres.jobs]

theorem lease_same {w : Worker} {now : Time} {attempt : ID} (valid : w.wantJob.isOk = true)
    (retired : Board.Retired p.jobs) :
    Same (Memory.lease lib q w now attempt m) (Postgres.lease lib q w now attempt p) := by
  have quiet := retired.quiet inv.ok now
  obtain ⟨agree', inv'⟩ := agree.expired inv quiet
  have jobs : (Memory.requeueExpired lib now m).1.jobs = (Postgres.expireTx lib now p).1.jobs :=
    agree'.memory.jobs_eq.trans agree'.jobs
  have retired' : Board.Retired (Postgres.expireTx lib now p).1.jobs := by
    rw [(Postgres.expireTx_rep agree.postgres inv now).2]
    exact retired.expire inv.ok now
  have locked := Postgres.lockJobs_eq agree'.postgres inv' agree'.order
  have count : countLeased (Postgres.lockJobs lib (Postgres.expireTx lib now p).1) w.id =
      countLeased (Postgres.expireTx lib now p).1.jobs w.id := by
    rw [locked]
    exact retired'.covered.countTasks_filter
  unfold Memory.lease Postgres.lease
  cases hw : w.wantJob with
  | error e => rw [hw] at valid; cases valid
  | ok want =>
    have choice : choose (Postgres.lockJobs lib (Postgres.expireTx lib now p).1) want q =
        choose (Postgres.expireTx lib now p).1.jobs want q := by
      rw [locked]
      exact retired'.choose_filter want q
    dsimp only
    rw [count, jobs]
    split_ifs with blank full
    · exact ⟨rfl, agree.jobs⟩
    · exact ⟨rfl, agree'.jobs⟩
    · cases chosen : choose (Postgres.expireTx lib now p).1.jobs want q with
      | none =>
        simp only [pickReady_of_none chosen, pickReady_of_none (choice.trans chosen)]
        exact ⟨rfl, agree'.jobs⟩
      | some c =>
        obtain ⟨pick, t, picked, job, task, ht, ready⟩ := pickReady_of_some chosen
        obtain ⟨pick', t', picked', job', task', ht', -⟩ := pickReady_of_some (choice.trans chosen)
        obtain rfl := Option.some.inj (ht.symm.trans ht')
        obtain ⟨mem, -, uncanceled, -⟩ := choose_good chosen
        have ok := inv'.ok c.job mem
        have same := leaseJob_eq ok ht ready w now attempt uncanceled
        have spec := leaseJob_spec ok ht ready (Bool.not_eq_true _ ▸ blank) now attempt
        simp only [picked, picked', job, job', task, task', ht]
        rw [← same]
        exact ⟨rfl, agree'.put_jobs inv' mem spec.evolves⟩

theorem call_same {walk : List Job} (perm : walk.Perm m.byID) {op : Op}
    (fresh : FreshIDs tr op (Memory.call lib q walk m op).2)
    (agreeable : Board.Agreeable lib q p.jobs op) : Same (Memory.call lib q walk m op) (Postgres.call lib q p op) := by
  cases op with
  | create opts id clock =>
    have create : Memory.call lib q walk m (.create opts id clock) = Memory.create lib q opts id clock m := rfl
    rw [create] at fresh ⊢
    exact agree.create_same inv fresh agreeable
  | get raw => exact .of_read agree.jobs (agree.get_same inv raw)
  | list limit service => exact .of_read agree.jobs (agree.list_same inv limit service)
  | lease w now attempt => exact agree.lease_same inv agreeable.1 agreeable.2
  | heartbeat taskID attemptID workerID now =>
      exact agree.heartbeat_same inv perm taskID attemptID workerID now agreeable
  | commit taskID attemptID result fail => exact agree.commit_same inv perm taskID attemptID result fail agreeable
  | requeueExpired now => exact agree.requeueExpired_same inv now agreeable
  | cancel raw => exact agree.cancel_same inv raw

end Agree

/-! ### Runs -/

theorem Board.Step.order {lib : Lib} {q : Quota} {sees : Job → Bool} {tr : Trace} {js js' : List Job}
    {op : Op} {resp : Resp}
    (step : Board.Step lib q sees js op resp js') (inv : Board.Inv lib tr js) (agreeable : Board.Agreeable lib q js op)
    (order : js.Pairwise Job.older) : js'.Pairwise Job.older := by
  obtain ⟨old, new, rfl, advances, adds⟩ := step.advances inv
  have kept : old.Pairwise Job.older :=
    Lists.pairwise_of_forall₂ advances order fun h h' => h.evolves.older h'.evolves
  cases adds with
  | none => rwa [List.append_nil]
  | created valid =>
    refine List.pairwise_append.mpr ⟨kept, List.pairwise_singleton _ _, fun j' hj' x hx => ?_⟩
    obtain ⟨j, hj, adv⟩ := Lists.forall₂_mem_right advances hj'
    rw [List.mem_singleton.mp hx]
    exact adv.evolves.older (.refl _) ((agreeable valid).1 j hj)

/-- Both stores, taking the same calls, where the jobs of `Memory` meet the condition. -/
def bothStores (lib : Lib) (q : Quota) (C : List Job → Op → Prop) : Machine Op (Resp × Resp) :=
  ((Memory.machine lib q).both (Postgres.machine lib q)).restrict fun s op => C s.1.jobs op

/-- Both stores are one machine, in every run in which each call is agreeable: they give the same answers, and show the
    same jobs in every state. -/
theorem agreement {lib : Lib} {q : Quota} {tr : List (Op × Resp × Resp)} {s : Memory × Postgres}
    (run : (bothStores lib q (Board.Agreeable lib q)).Run (Machine.Twice FreshIDs) tr s) :
    (∀ e ∈ tr, e.2.1 = e.2.2) ∧ (∀ raw, Memory.get raw s.1 = Postgres.get lib raw s.2) ∧
      ∀ limit service, .jobs (listJobs s.1.jobs limit service) = Postgres.list lib limit service s.2 := by
  obtain ⟨same, -, right, agree⟩ := run.lockstep (R := Agree) ⟨⟨List.nodup_nil, rfl⟩, StoreKind.postgres.rep_init,
    rfl, .nil⟩ (by
    intro tr m p op resp resp' m' p' _ right agree agreeable fresh fresh' step step'
    have inv : Board.Inv lib tr p.jobs := StoreKind.inv_of_run (k := .postgres) id right
    rw [agree.memory.jobs_eq, agree.jobs] at agreeable
    have board := Postgres.step_matched agree.postgres inv step'
    have board' := Memory.step_matched agree.memory (agree.jobs ▸ inv) fresh step
    obtain ⟨walk, perm, call⟩ := step
    have same := agree.call_same inv perm (call ▸ fresh) agreeable
    rw [call, step'] at same
    exact ⟨same.1, board'.2, board.2, same.2, board.1.order inv agreeable agree.order⟩)
  have inv : Board.Inv lib (Machine.snds tr) s.2.jobs := StoreKind.inv_of_run (k := .postgres) id right
  exact ⟨same, agree.get_same inv, agree.list_same inv⟩

def callBoth (lib : Lib) (q : Quota) (s : Memory × Postgres) (op : Op) : (Memory × Postgres) × Resp × Resp :=
  (((Memory.call lib q s.1.byID s.1 op).1, (Postgres.call lib q s.2 op).1),
    (Memory.call lib q s.1.byID s.1 op).2, (Postgres.call lib q s.2 op).2)

theorem callBoth_run {lib : Lib} {q : Quota} {C : List Job → Op → Prop} {ops : List Op}
    (playable : Machine.Playable (callBoth lib q) (Machine.Twice FreshIDs) (fun s op => C s.1.jobs op) []
      ({}, {}) ops) :
    (bothStores lib q C).Run (Machine.Twice FreshIDs) (Machine.play (callBoth lib q) ({}, {}) ops).1
      (Machine.play (callBoth lib q) ({}, {}) ops).2 := by
  have run := Machine.Run.play (M := (Memory.machine lib q).both (Postgres.machine lib q)) (f := callBoth lib q)
    (C := fun s op => C s.1.jobs op) (fun s op => ⟨⟨_, .refl _, rfl⟩, rfl⟩) .nil playable
  rwa [List.nil_append] at run

namespace Sample

def playBoth (ops : List Op) : List (Op × Resp × Resp) × Memory × Postgres :=
  Machine.play (callBoth Lib.plain {}) ({}, {}) ops

def settledJobs : List Op :=
  [create, lease, createOther, .requeueExpired 7000000, commit, .cancel otherID.text, leaseOther, .list 10 ""]

end Sample

open Sample in
theorem agreement_sample : (playBoth settledJobs).1.length = 8 ∧ ∀ e ∈ (playBoth settledJobs).1, e.2.1 = e.2.2 :=
  ⟨by decide +kernel, (agreement (callBoth_run (C := Board.Agreeable Lib.plain {}) (by decide +kernel))).1⟩

open Sample in
/-- After a cancellation the leased task continues in `Memory`, and is not found in `Postgres`. -/
theorem agreement_fails :
    (bothStores Lib.plain {} fun _ _ => True).Run (Machine.Twice FreshIDs) (playBoth [create, lease, cancel, commit]).1
        (playBoth [create, lease, cancel, commit]).2 ∧
      (∃ e ∈ (playBoth [create, lease, cancel, commit]).1, e.2.1 ≠ e.2.2) ∧
      Memory.get jobID.text (playBoth [create, lease, cancel, commit]).2.1 ≠
        Postgres.get Lib.plain jobID.text (playBoth [create, lease, cancel, commit]).2.2 :=
  ⟨callBoth_run (C := fun _ _ => True) (by decide +kernel), by decide +kernel, by decide +kernel⟩

end Aquila.Jobs

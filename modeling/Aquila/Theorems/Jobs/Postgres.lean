import Aquila.Theorems.Jobs.Calls

/-! The store in a table is a board that sees its unfinished jobs. -/

namespace Aquila.Jobs

theorem Evolves.created {j j' : Job} (h : Evolves j j') : j'.created = j.created := (congrArg Job.created h.static :)

theorem expireJob_idle {lib : Lib} {now : Time} {j : Job} (h : (expireJob lib now j).2 = 0) :
    (expireJob lib now j).1 = j := by
  unfold expireJob at h ⊢
  cases failed : failDeadline lib now j with
  | some j' => simp [failed] at h
  | none =>
    simp only [failed] at h ⊢
    split_ifs at h ⊢ with none_
    · rfl
    · exact absurd h none_

namespace Postgres

variable {lib : Lib} {q : Quota} {tr : Trace} {p p' : Postgres} {op : Op} {resp : Resp} {j j' : Job}

/-- The columns of a row are copies of what its payload says. -/
structure Row.Copies (r : Row) : Prop where
  id : r.id = r.payload.id
  created : r.created = r.payload.created
  status : r.status = r.payload.status

def Rep (p : Postgres) : Prop := ∀ r ∈ p.rows, Row.Copies r

/-! ### Reading -/

theorem Rep.map_id (rep : Rep p) : p.rows.map Row.id = p.jobs.map Job.id := by
  rw [jobs, List.map_map]
  exact List.map_congr_left fun r hr => (rep r hr).id

theorem decodeJob_eq (inv : Board.Inv lib tr p.jobs) {r : Row} (hr : r ∈ p.rows) :
    decodeJob lib r.payload = r.payload :=
  (inv.ok r.payload (List.mem_map_of_mem hr)).graded

theorem Rep.active_eq (rep : Rep p) {r : Row} (hr : r ∈ p.rows) : Row.active r = r.payload.occupies := by
  rw [Row.active, (rep r hr).status, Job.occupies]

theorem active_rows (rep : Rep p) (inv : Board.Inv lib tr p.jobs) :
    (p.rows.filter Row.active).map (fun r => decodeJob lib r.payload) = p.jobs.filter Job.occupies := by
  rw [jobs, List.filter_map]
  have same : p.rows.filter Row.active = p.rows.filter (Job.occupies ∘ fun r => r.payload) :=
    List.filter_congr fun r hr => rep.active_eq hr
  rw [same]
  exact List.map_congr_left fun r hr => decodeJob_eq inv (List.mem_of_mem_filter hr)

theorem lockJobs_perm (rep : Rep p) (inv : Board.Inv lib tr p.jobs) :
    (lockJobs lib p).Perm (p.jobs.filter Job.occupies) := by
  rw [← active_rows rep inv]
  exact (List.perm_insertionSort _ _).map _

theorem mem_lockJobs (rep : Rep p) (inv : Board.Inv lib tr p.jobs) : j ∈ lockJobs lib p ↔ j ∈ p.jobs ∧
    j.occupies = true := by
  rw [(lockJobs_perm rep inv).mem_iff, List.mem_filter]

theorem find_eq (rep : Rep p) (inv : Board.Inv lib tr p.jobs) {id : String} (h : find lib p id = some j) :
    j ∈ p.jobs ∧ j.id = id := by
  obtain ⟨r, hr, rfl⟩ := Option.map_eq_some_iff.mp h
  obtain ⟨mem, rfl⟩ := Keyed.get_eq_some hr
  rw [decodeJob_eq inv mem]
  exact ⟨List.mem_map_of_mem mem, (rep r mem).id.symm⟩

/-! ### Writing -/

theorem updateJob_rep (rep : Rep p) (created : ∀ r ∈ p.rows, r.id = j.id → r.created = j.created) :
    Rep (p.updateJob j) ∧ (p.updateJob j).jobs = Keyed.update Job.id p.jobs j := by
  refine ⟨fun r' hr' => ?_, ?_⟩
  · obtain ⟨r, hr, rfl⟩ := List.mem_map.mp hr'
    split_ifs with same
    · exact ⟨same, created r hr same, rfl⟩
    · exact rep r hr
  · simp only [jobs, updateJob, Keyed.update, List.map_map]
    refine List.map_congr_left fun r hr => ?_
    simp only [Function.comp_apply, (rep r hr).id]
    split_ifs <;> rfl

theorem Rep.created (rep : Rep p) (inv : Board.Inv lib tr p.jobs) (hj : j ∈ p.jobs) (evolves : Evolves j j') :
    ∀ r ∈ p.rows, r.id = j'.id → r.created = j'.created := by
  intro r hr same
  have eq : r.payload = j := Keyed.eq_of_key inv.ids (List.mem_map_of_mem hr) hj
    (by rw [← (rep r hr).id, same, evolves.id])
  rw [(rep r hr).created, eq, evolves.created]

theorem Rep.update (rep : Rep p) (inv : Board.Inv lib tr p.jobs) (hj : j ∈ p.jobs) (evolves : Evolves j j') :
    Rep (p.updateJob j') ∧ (p.updateJob j').jobs = Keyed.update Job.id p.jobs j' :=
  updateJob_rep rep (rep.created inv hj evolves)

theorem foldl_updateJob (js : List Job) (rep : Rep p)
    (created : ∀ j ∈ js, ∀ r ∈ p.rows, r.id = j.id → r.created = j.created) :
    Rep (js.foldl updateJob p) ∧ (js.foldl updateJob p).jobs = js.foldl (Keyed.update Job.id) p.jobs := by
  induction js generalizing p with
  | nil => exact ⟨rep, rfl⟩
  | cons j js ih =>
    obtain ⟨rep', jobs'⟩ := updateJob_rep rep (created j List.mem_cons_self)
    rw [List.foldl_cons, List.foldl_cons, ← jobs']
    refine ih rep' fun k hk r' hr' => ?_
    -- an update changes neither the id nor the creation time of a row
    obtain ⟨r, hr, rfl⟩ := List.mem_map.mp hr'
    have := created k (List.mem_cons_of_mem j hk) r hr
    split_ifs <;> exact this

theorem expireTx_rep (rep : Rep p) (inv : Board.Inv lib tr p.jobs) (now : Time) :
    Rep (expireTx lib now p).1 ∧ (expireTx lib now p).1.jobs = Board.expire lib Job.occupies now p.jobs := by
  have locked : ∀ {j}, j ∈ lockJobs lib p → j ∈ p.jobs ∧ j.occupies = true := (mem_lockJobs rep inv).mp
  have evolves : ∀ {j}, j ∈ lockJobs lib p → Evolves j (expireJob lib now j).1 :=
    fun h => (expireJob_spec (inv.ok _ (locked h).1) now).evolves
  have written : ∀ a ∈ (((lockJobs lib p).map (expireJob lib now)).filter (·.2 ≠ 0)).map (·.1),
      ∃ j ∈ lockJobs lib p, a = (expireJob lib now j).1 := by
    intro a ha
    obtain ⟨e, he, rfl⟩ := List.mem_map.mp ha
    obtain ⟨j, hj, rfl⟩ := List.mem_map.mp (List.mem_of_mem_filter he)
    exact ⟨j, hj, rfl⟩
  obtain ⟨rep', jobs'⟩ := foldl_updateJob ((((lockJobs lib p).map (expireJob lib now)).filter (·.2 ≠ 0)).map (·.1)) rep
    fun a ha => by
      obtain ⟨j, hj, rfl⟩ := written a ha
      exact rep.created inv (locked hj).1 (evolves hj)
  refine ⟨rep', jobs'.trans ?_⟩
  refine Keyed.foldl_update_eq ?_ (fun x hx a ha same => ?_) fun x hx missed => ?_
  · have ids : ((lockJobs lib p).map fun j => (expireJob lib now j).1.id).Nodup := by
      rw [List.map_congr_left fun j hj => (evolves hj).id, ((lockJobs_perm rep inv).map Job.id).nodup_iff]
      exact inv.ids.sublist (List.filter_sublist.map Job.id)
    rw [List.map_map]
    refine List.Nodup.sublist (List.filter_sublist.map _) ?_
    rw [List.map_map]
    exact ids
  · obtain ⟨j, hj, rfl⟩ := written a ha
    have eq : x = j := Keyed.eq_of_key inv.ids hx (locked hj).1 (same.trans (evolves hj).id)
    rw [eq, if_pos (locked hj).2]
  · split_ifs with occupies
    · have hx' : x ∈ lockJobs lib p := (mem_lockJobs rep inv).mpr ⟨hx, occupies⟩
      refine expireJob_idle ?_
      by_contra changed
      refine missed (expireJob lib now x).1 ?_ (evolves hx').id
      exact List.mem_map.mpr ⟨_, List.mem_filter.mpr ⟨List.mem_map_of_mem hx', by simpa using changed⟩, rfl⟩
    · rfl

/-! ### The calls -/

/-- A call that the board makes as well, and that keeps the representation. -/
def Matched (lib : Lib) (q : Quota) (p : Postgres) (op : Op) (result : Postgres × Resp) : Prop :=
  Board.Step lib q Job.occupies p.jobs op result.2 result.1.jobs ∧ Rep result.1

theorem create_matched (rep : Rep p) (inv : Board.Inv lib tr p.jobs) (opts : CreateOpts) (id : ID)
    (clock : CreateClock) :
    Matched lib q p (.create opts id clock) (create lib q opts id clock p) := by
  obtain ⟨rep', jobs'⟩ := expireTx_rep rep inv clock.expire
  have inv' : Board.Inv lib tr (expireTx lib clock.expire p).1.jobs := jobs' ▸ inv.expire clock.expire
  have active := lockJobs_perm rep' inv'
  have refused : ∀ e, Matched lib q p (.create opts id clock) (p, .err e) := fun _ => ⟨.refused .., rep⟩
  unfold create
  cases valid : validateCreate lib clock.validate opts with
  | some e => exact refused _
  | none =>
    dsimp only
    split_ifs with busy quota used
    · exact refused _
    · exact refused _
    · exact refused _
    · rw [Bool.not_eq_true, gatewayBusy_active active, jobs'] at busy
      rw [Bool.not_eq_true, overActive_active active, jobs'] at quota
      refine ⟨?_, fun r hr => ?_⟩
      · have created : Board.Step lib q Job.occupies p.jobs (.create opts id clock) _ _ :=
          .created _ opts id clock valid busy quota
        rw [← jobs'] at created
        simpa [jobs] using created
      · rcases List.mem_append.mp hr with hr | hr
        · exact rep' r hr
        · rw [List.mem_singleton.mp hr]
          exact ⟨rfl, rfl, rfl⟩

theorem lease_matched (rep : Rep p) (inv : Board.Inv lib tr p.jobs) (w : Worker) (now : Time) (attempt : ID) :
    Matched lib q p (.lease w now attempt) (lease lib q w now attempt p) := by
  obtain ⟨rep', jobs'⟩ := expireTx_rep rep inv now
  have inv' : Board.Inv lib tr (expireTx lib now p).1.jobs := jobs' ▸ inv.expire now
  have active := lockJobs_perm rep' inv'
  have refused : ∀ e, Matched lib q p (.lease w now attempt) ((expireTx lib now p).1, .err e) :=
    fun e => ⟨jobs' ▸ .expiredOnly _ _ _ _ rfl, rep'⟩
  unfold lease
  split_ifs with blank
  · exact ⟨.refused .., rep⟩
  · cases w.wantJob with
    | error e => exact ⟨.refused .., rep⟩
    | ok want =>
      dsimp only
      split_ifs with full
      · exact refused _
      · cases hp : pickReady (lockJobs lib (expireTx lib now p).1) want q with
        | none => simpa only [hp] using refused _
        | some pick =>
          cases hj : (lockJobs lib (expireTx lib now p).1)[pick.job]? with
          | none => simpa only [hp, hj] using refused _
          | some j =>
            cases ht : j.tasks[pick.task]? with
            | none => simpa only [hp, hj, ht] using refused _
            | some t =>
              simp only [hj, ht]
              obtain ⟨locked, ready, operator, canceled, share⟩ := pickReady_good hp hj ht
              obtain ⟨mem, occupies⟩ := (mem_lockJobs rep' inv').mp locked
              have worker : w.blank = false := by simpa using blank
              have spec := leaseJob_spec (inv'.ok j mem) ht ready worker now attempt
              obtain ⟨rep'', update⟩ := rep'.update inv' mem spec.evolves
              refine ⟨?_, rep''⟩
              rw [leasedOf, countTasks_perm active, jobs'] at share
              rw [countLeased, countTasks_perm active, jobs'] at full
              rw [jobs'] at mem
              have leased : Board.Step lib q Job.occupies p.jobs (.lease w now attempt) _ _ :=
                .leased _ w now attempt j pick.task t
                  ⟨worker, mem, occupies, ht, ready, operator, canceled, not_le.mp full, share⟩
              rw [← jobs', ← update] at leased
              exact leased

theorem heartbeat_matched (rep : Rep p) (inv : Board.Inv lib tr p.jobs) (taskID attemptID workerID : String)
    (now : Time) :
    Matched lib q p (.heartbeat taskID attemptID workerID now) (heartbeat lib taskID attemptID workerID now p) := by
  have refused : ∀ e, Matched lib q p (.heartbeat taskID attemptID workerID now) (p, .err e) :=
    fun _ => ⟨.refused .., rep⟩
  unfold heartbeat
  cases ids : normalizeIDs taskID attemptID with
  | error e => exact refused e
  | ok both =>
    obtain ⟨tid, aid⟩ := both
    cases found : findTask (lockJobs lib p) tid with
    | none => simpa only [found] using refused _
    | some jit =>
      obtain ⟨j, i, t⟩ := jit
      have at_ : Board.Found Job.occupies p.jobs tid j i t := .of_findTask found (mem_lockJobs rep inv).mp
      cases renew : applyHeartbeat t aid workerID now with
      | error e => simpa only [found, renew] using refused e
      | ok t' =>
        simp only [found, renew]
        obtain ⟨rep', update⟩ := rep.update inv at_.mem (heartbeat_spec (inv.ok j at_.mem) at_.task renew).evolves
        refine ⟨?_, rep'⟩
        rw [update]
        exact .renewed _ _ _ _ _ tid aid j i t t' ids at_ renew

theorem commit_matched (rep : Rep p) (inv : Board.Inv lib tr p.jobs) (taskID attemptID : String)
    (result : Plan.StepResult)
    (fail : String) :
    Matched lib q p (.commit taskID attemptID result fail) (commit lib taskID attemptID result fail p) := by
  have refused : ∀ e, Matched lib q p (.commit taskID attemptID result fail) (p, .err e) := fun _ => ⟨.refused .., rep⟩
  unfold commit
  cases ids : normalizeIDs taskID attemptID with
  | error e => exact refused e
  | ok both =>
    obtain ⟨tid, aid⟩ := both
    cases found : findTask (lockJobs lib p) tid with
    | none => simpa only [found] using refused _
    | some jit =>
      obtain ⟨j, i, t⟩ := jit
      have at_ : Board.Found Job.occupies p.jobs tid j i t := .of_findTask found (mem_lockJobs rep inv).mp
      cases done : applyCommit t aid result fail with
      | error e => simpa only [found, done] using refused e
      | ok t' =>
        simp only [found, done]
        obtain ⟨rep', update⟩ := rep.update inv at_.mem (commit_spec (inv.ok j at_.mem) at_.task done).evolves
        refine ⟨?_, rep'⟩
        rw [update]
        exact .committed _ _ _ _ _ tid aid j i t t' ids at_ done

theorem cancel_matched (rep : Rep p) (inv : Board.Inv lib tr p.jobs) (raw : String) :
    Matched lib q p (.cancel raw) (cancel lib raw p) := by
  have refused : ∀ e, Matched lib q p (.cancel raw) (p, .err e) := fun _ => ⟨.refused .., rep⟩
  unfold cancel
  cases normal : normalizeID raw with
  | none => exact refused _
  | some id =>
    cases found : find lib p id with
    | none => simpa only [found] using refused _
    | some j =>
      simp only [found]
      obtain ⟨mem, eq⟩ := find_eq rep inv found
      obtain ⟨rep', update⟩ := rep.update inv mem (applyCancel_spec (inv.ok j mem)).evolves
      refine ⟨?_, rep'⟩
      rw [update]
      exact .canceled _ raw id j normal mem eq

theorem get_matched (rep : Rep p) (inv : Board.Inv lib tr p.jobs) (raw : String) :
    Matched lib q p (.get raw) (p, get lib raw p) := by
  refine ⟨?_, rep⟩
  unfold get
  cases normalizeID raw with
  | none => exact .refused ..
  | some id =>
    dsimp only
    cases found : find lib p id with
    | none => exact .refused ..
    | some j => exact .got _ raw j (find_eq rep inv found).1

theorem list_matched (rep : Rep p) (inv : Board.Inv lib tr p.jobs) (limit : Int) (service : String) :
    Matched lib q p (.list limit service) (p, list lib limit service p) := by
  refine ⟨.listed _ limit service _ fun j hj => ?_, rep⟩
  obtain ⟨r, hr, rfl⟩ := List.mem_map.mp hj
  have sorted := List.mem_of_mem_take hr
  rw [(List.perm_insertionSort _ _).mem_iff] at sorted
  rw [decodeJob_eq inv (List.mem_of_mem_filter sorted)]
  exact List.mem_map_of_mem (List.mem_of_mem_filter sorted)

/-- Every call of the store is a step of the board. -/
theorem step_matched (rep : Rep p) (inv : Board.Inv lib tr p.jobs) (step : (machine lib q).Step p op resp p') :
    Board.Step lib q Job.occupies p.jobs op resp p'.jobs ∧ Rep p' := by
  have matched : Matched lib q p op (call lib q p op) := by
    cases op with
    | create opts id clock => exact create_matched rep inv opts id clock
    | get raw => exact get_matched rep inv raw
    | list limit service => exact list_matched rep inv limit service
    | lease w now attempt => exact lease_matched rep inv w now attempt
    | heartbeat taskID attemptID workerID now => exact heartbeat_matched rep inv taskID attemptID workerID now
    | commit taskID attemptID result fail => exact commit_matched rep inv taskID attemptID result fail
    | requeueExpired now =>
      obtain ⟨rep', jobs'⟩ := expireTx_rep rep inv now
      exact ⟨jobs' ▸ .requeued _ now _, rep'⟩
    | cancel raw => exact cancel_matched rep inv raw
  have result : call lib q p op = (p', resp) := step
  rw [result] at matched
  exact matched

end Postgres
end Aquila.Jobs

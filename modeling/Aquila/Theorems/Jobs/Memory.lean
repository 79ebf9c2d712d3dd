import Aquila.Theorems.Jobs.Calls

/-! The store in memory is a board that sees all of its jobs. -/

namespace Aquila.Jobs.Memory

variable {lib : Lib} {q : Quota} {tr : Trace} {m m' : Memory} {op : Op} {resp : Resp} {j j' : Job}

abbrev seesAll : Job → Bool := fun _ => true

/-- The order lists the jobs of the map. -/
structure Rep (m : Memory) : Prop where
  ids : (m.byID.map Job.id).Nodup
  order : m.order = m.byID.map Job.id

theorem Rep.jobs_eq (rep : Rep m) : m.jobs = m.byID := by
  rw [jobs, rep.order, List.map_map]
  calc m.byID.map ((fun id => (Keyed.get Job.id m.byID id).getD default) ∘ Job.id) = m.byID.map id := by
        refine List.map_congr_left fun j hj => ?_
        simp [Keyed.get_of_mem rep.ids hj]
    _ = m.byID := List.map_id _

theorem Rep.put (rep : Rep m) (hj : j ∈ m.byID) (hid : j'.id = j.id) :
    Rep (m.put j') ∧ (m.put j').byID = Keyed.update Job.id m.byID j' := by
  have byID : (m.put j').byID = Keyed.update Job.id m.byID j' := Keyed.put_of_mem hj hid.symm
  refine ⟨⟨?_, ?_⟩, byID⟩
  · rw [byID, Keyed.map_key_update]
    exact rep.ids
  · rw [byID, Keyed.map_key_update]
    exact rep.order

theorem requeueExpired_byID (now : Time) (m : Memory) :
    (requeueExpired lib now m).1.byID = Board.expire lib seesAll now m.byID := by
  simp [requeueExpired, Board.expire]

theorem Rep.requeueExpired (rep : Rep m) (inv : Board.Inv lib tr m.byID) (now : Time) :
    Rep (requeueExpired lib now m).1 := by
  have ids : ((Memory.requeueExpired lib now m).1.byID).map Job.id = m.byID.map Job.id := by
    rw [requeueExpired_byID]
    exact Lists.map_eq_of_forall₂ (Board.expire_keeps inv.ok now) fun _ _ h => h.evolves.id
  exact ⟨ids ▸ rep.ids, rep.order.trans ids.symm⟩

/-- A call that the board makes as well, and that keeps the representation. -/
def Matched (lib : Lib) (q : Quota) (m : Memory) (op : Op) (result : Memory × Resp) : Prop :=
  Board.Step lib q seesAll m.byID op result.2 result.1.byID ∧ Rep result.1

theorem create_matched (rep : Rep m) (inv : Board.Inv lib tr m.byID) {opts : CreateOpts} {id : ID} {clock : CreateClock}
    (fresh : FreshIDs tr (.create opts id clock) (create lib q opts id clock m).2) :
    Matched lib q m (.create opts id clock) (create lib q opts id clock m) := by
  have byID : (requeueExpired lib clock.expire m).1.byID = _ := requeueExpired_byID clock.expire m
  have rep' := rep.requeueExpired inv clock.expire
  have jobs := rep'.jobs_eq
  unfold create at fresh ⊢
  cases valid : validateCreate lib clock.validate opts with
  | some e => exact ⟨.refused .., rep⟩
  | none =>
    simp only [valid] at fresh ⊢
    split_ifs at fresh ⊢ with busy quota
    · exact ⟨byID ▸ .expiredOnly _ _ _ _ rfl, rep'⟩
    · exact ⟨byID ▸ .expiredOnly _ _ _ _ rfl, rep'⟩
    · have unused : id.text ∉ ((requeueExpired lib clock.expire m).1.byID).map Job.id := by
        rw [byID]
        exact (inv.expire clock.expire).unused (fresh id.text (by simp [drawn]))
      have put : Keyed.put Job.id (requeueExpired lib clock.expire m).1.byID (buildJob lib opts id.text clock.build) =
          (requeueExpired lib clock.expire m).1.byID ++ [buildJob lib opts id.text clock.build] :=
            Keyed.put_of_not_mem unused
      rw [jobs, byID, Bool.not_eq_true] at busy quota
      refine ⟨?_, ?_, ?_⟩
      · rw [byID] at put
        simp only [Memory.put, byID, put]
        exact .created _ opts id clock valid busy quota
      · simp only [Memory.put, put, List.map_append, List.nodup_append_comm]
        exact List.nodup_cons.mpr ⟨unused, rep'.ids⟩
      · simp only [Memory.put, put, List.map_append, rep'.order]
        rfl

theorem lease_matched (rep : Rep m) (inv : Board.Inv lib tr m.byID) (w : Worker) (now : Time) (attempt : ID) :
    Matched lib q m (.lease w now attempt) (lease lib q w now attempt m) := by
  have byID : (requeueExpired lib now m).1.byID = _ := requeueExpired_byID now m
  have rep' := rep.requeueExpired inv now
  have jobs := rep'.jobs_eq
  have refused : ∀ e, Matched lib q m (.lease w now attempt) ((requeueExpired lib now m).1, .err e) :=
    fun e => ⟨byID ▸ .expiredOnly _ _ _ _ rfl, rep'⟩
  unfold lease
  dsimp only
  split_ifs with blank full
  · exact ⟨.refused .., rep⟩
  · exact refused _
  · cases w.wantJob with
    | error e => exact refused e
    | ok want =>
      cases hp : pickReady (requeueExpired lib now m).1.jobs want q with
      | none => simpa only [hp] using refused _
      | some pick =>
        cases hj : (requeueExpired lib now m).1.jobs[pick.job]? with
        | none => simpa only [hp, hj] using refused _
        | some j =>
          cases ht : j.tasks[pick.task]? with
          | none => simpa only [hp, hj, ht] using refused _
          | some t =>
            simp only [hp, hj, ht]
            obtain ⟨mem, ready, operator, canceled, share⟩ := pickReady_good hp hj ht
            rw [jobs, byID] at mem share full
            have ok := (inv.expire now).ok j mem
            have worker : w.blank = false := by simpa using blank
            have spec := leaseJob_spec ok ht ready worker now attempt
            obtain ⟨rep'', put⟩ := rep'.put (by rw [byID]; exact mem) spec.evolves.id
            -- the status is all that a refresh would change
            have same := leaseJob_eq ok ht ready w now attempt canceled
            have matched : Board.Step lib q seesAll m.byID (.lease w now attempt) _ _ :=
              .leased _ w now attempt j pick.task t
              ⟨worker, mem, rfl, ht, ready, operator, canceled, by simpa using full, by simpa using share⟩
            rw [byID] at put
            rw [same] at matched put rep''
            exact ⟨by rw [put]; exact matched, rep''⟩

theorem heartbeat_matched (rep : Rep m) (inv : Board.Inv lib tr m.byID) {walk : List Job} (perm : walk.Perm m.byID)
    (taskID attemptID workerID : String) (now : Time) :
    Matched lib q m (.heartbeat taskID attemptID workerID now) (heartbeat walk taskID attemptID workerID now m) := by
  have refused : ∀ e, Matched lib q m (.heartbeat taskID attemptID workerID now) (m, .err e) :=
    fun _ => ⟨.refused .., rep⟩
  unfold heartbeat
  cases ids : normalizeIDs taskID attemptID with
  | error e => exact refused e
  | ok both =>
    obtain ⟨tid, aid⟩ := both
    cases found : findTask walk tid with
    | none => simpa only [found] using refused _
    | some jit =>
      obtain ⟨j, i, t⟩ := jit
      have at_ : Board.Found seesAll m.byID tid j i t := .of_findTask found fun hx => ⟨perm.mem_iff.mp hx, rfl⟩
      cases renew : applyHeartbeat t aid workerID now with
      | error e => simpa only [found, renew] using refused e
      | ok t' =>
        simp only [found, renew]
        obtain ⟨rep', put⟩ := rep.put at_.mem (heartbeat_spec (inv.ok j at_.mem) at_.task renew).evolves.id
        refine ⟨?_, rep'⟩
        rw [put]
        exact .renewed _ _ _ _ _ tid aid j i t t' ids at_ renew

theorem commit_matched (rep : Rep m) (inv : Board.Inv lib tr m.byID) {walk : List Job} (perm : walk.Perm m.byID)
    (taskID attemptID : String) (result : Plan.StepResult) (fail : String) :
    Matched lib q m (.commit taskID attemptID result fail) (commit lib walk taskID attemptID result fail m) := by
  have refused : ∀ e, Matched lib q m (.commit taskID attemptID result fail) (m, .err e) := fun _ => ⟨.refused .., rep⟩
  unfold commit
  cases ids : normalizeIDs taskID attemptID with
  | error e => exact refused e
  | ok both =>
    obtain ⟨tid, aid⟩ := both
    cases found : findTask walk tid with
    | none => simpa only [found] using refused _
    | some jit =>
      obtain ⟨j, i, t⟩ := jit
      have at_ : Board.Found seesAll m.byID tid j i t := .of_findTask found fun hx => ⟨perm.mem_iff.mp hx, rfl⟩
      cases done : applyCommit t aid result fail with
      | error e => simpa only [found, done] using refused e
      | ok t' =>
        simp only [found, done]
        obtain ⟨rep', put⟩ := rep.put at_.mem (commit_spec (inv.ok j at_.mem) at_.task done).evolves.id
        refine ⟨?_, rep'⟩
        rw [put]
        exact .committed _ _ _ _ _ tid aid j i t t' ids at_ done

theorem cancel_matched (rep : Rep m) (inv : Board.Inv lib tr m.byID) (raw : String) :
    Matched lib q m (.cancel raw) (cancel lib raw m) := by
  have refused : ∀ e, Matched lib q m (.cancel raw) (m, .err e) := fun _ => ⟨.refused .., rep⟩
  unfold cancel
  cases normal : normalizeID raw with
  | none => exact refused _
  | some id =>
    cases found : Keyed.get Job.id m.byID id with
    | none => simpa only [found] using refused _
    | some j =>
      simp only [found]
      obtain ⟨mem, eq⟩ := Keyed.get_eq_some found
      obtain ⟨rep', put⟩ := rep.put mem (applyCancel_spec (inv.ok j mem)).evolves.id
      refine ⟨?_, rep'⟩
      rw [put]
      exact .canceled _ raw id j normal mem eq

theorem get_matched (rep : Rep m) (raw : String) : Matched lib q m (.get raw) (m, get raw m) := by
  refine ⟨?_, rep⟩
  unfold get
  cases normalizeID raw with
  | none => exact .refused ..
  | some id =>
    dsimp only
    cases found : Keyed.get Job.id m.byID id with
    | none => exact .refused ..
    | some j => exact .got _ raw j (Keyed.get_eq_some found).1

theorem listJobs_subset (js : List Job) (limit : Int) (service : String) : listJobs js limit service ⊆ js := by
  intro j hj
  have sorted := List.mem_of_mem_take hj
  rw [(List.perm_insertionSort _ _).mem_iff] at sorted
  exact List.mem_of_mem_filter sorted

/-- Every call of the store is a step of the board. -/
theorem step_matched (rep : Rep m) (inv : Board.Inv lib tr m.byID) (fresh : FreshIDs tr op resp)
    (step : (machine lib q).Step m op resp m') : Board.Step lib q seesAll m.byID op resp m'.byID ∧ Rep m' := by
  obtain ⟨walk, perm, call⟩ := step
  have matched : Matched lib q m op (Memory.call lib q walk m op) := by
    cases op with
    | create opts id clock =>
      refine create_matched rep inv ?_
      have : Memory.create lib q opts id clock m = (m', resp) := call
      rw [this]
      exact fresh
    | get raw => exact get_matched rep raw
    | list limit service => exact ⟨.listed _ _ _ _ (rep.jobs_eq ▸ listJobs_subset _ _ _), rep⟩
    | lease w now attempt => exact lease_matched rep inv w now attempt
    | heartbeat taskID attemptID workerID now => exact heartbeat_matched rep inv perm taskID attemptID workerID now
    | commit taskID attemptID result fail => exact commit_matched rep inv perm taskID attemptID result fail
    | requeueExpired now => exact ⟨requeueExpired_byID now m ▸ .requeued _ now _, rep.requeueExpired inv now⟩
    | cancel raw => exact cancel_matched rep inv raw
  rw [call] at matched
  exact matched

end Aquila.Jobs.Memory

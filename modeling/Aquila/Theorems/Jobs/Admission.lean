import Aquila.Theorems.Jobs.Stores

/-! Admission: the unfinished jobs of a store have different gateways and stay within the share of their
    service. -/

namespace Aquila.Jobs

/-! ### Gateways -/

theorem ofList_ne_empty {l : List Char} (h : l ≠ []) : String.ofList l ≠ "" := by
  intro empty
  have := congrArg String.toList empty
  rw [String.toList_ofList] at this
  exact h this

theorem toLower_ne_empty {lib : Lib} {s : String} (h : s ≠ "") : lib.toLower s ≠ "" := by
  refine ofList_ne_empty fun empty => h ?_
  rw [← String.ofList_toList (s := s), List.map_eq_nil_iff.mp empty]

theorem occupancyKey_ne_empty {lib : Lib} {raw : String} (h : trimSpace raw ≠ "") : occupancyKey lib raw ≠ "" := by
  unfold occupancyKey
  cases lib.parseURL (trimSpace raw) with
  | error e => exact toLower_ne_empty h
  | ok u =>
    dsimp only
    split_ifs
    · exact toLower_ne_empty h
    · intro empty
      have := congrArg String.toList empty
      simp at this

theorem validateCreate_targets {lib : Lib} {now : Time} {opts : CreateOpts} (h : validateCreate lib now opts = none) :
    trimSpace opts.baseline ≠ "" ∧ trimSpace opts.patch ≠ "" := by
  unfold validateCreate at h
  rw [Option.or_eq_none_iff, Option.or_eq_none_iff] at h
  have checked := h.2.2
  refine not_or.mp fun blank => ?_
  rw [checkOpts, if_pos blank] at checked
  cases checked

section
variable {lib : Lib} {q : Quota} {opts : CreateOpts} {id : String} {clock now : Time} {js : List Job}

theorem occupancyKeys_ne_empty (valid : validateCreate lib now opts = none) :
    ∀ key ∈ occupancyKeys lib (buildJob lib opts id clock), key ≠ "" := by
  obtain ⟨baseline, patch⟩ := validateCreate_targets valid
  have baseline' : occupancyKey lib (buildJob lib opts id clock).baseline ≠ "" := occupancyKey_ne_empty baseline
  have patch' : occupancyKey lib (buildJob lib opts id clock).patch ≠ "" := occupancyKey_ne_empty patch
  intro key hkey
  unfold occupancyKeys at hkey
  dsimp only at hkey
  split_ifs at hkey
  · rw [List.mem_singleton.mp hkey]
    exact baseline'
  · rcases List.mem_cons.mp hkey with rfl | hkey
    · exact baseline'
    · rw [List.mem_singleton.mp hkey]
      exact patch'

theorem gatewayBusy_disjoint (valid : validateCreate lib now opts = none) (unused : id ∉ js.map Job.id)
    (free : gatewayBusy lib js (buildJob lib opts id clock) = false) {j : Job} (hj : j ∈ js)
    (occupies : j.occupies = true) :
    (occupancyKeys lib j).Disjoint (occupancyKeys lib (buildJob lib opts id clock)) := by
  intro key hkey hkey'
  have other : j.id ≠ (buildJob lib opts id clock).id := fun same => unused (List.mem_map.mpr ⟨j, hj, same⟩)
  have wanted : key ∈ (occupancyKeys lib (buildJob lib opts id clock)).filter (· ≠ "") :=
    List.mem_filter.mpr ⟨hkey', by simpa using occupancyKeys_ne_empty valid key hkey'⟩
  have busy : gatewayBusy lib js (buildJob lib opts id clock) = true := by
    unfold gatewayBusy
    dsimp only
    refine List.any_eq_true.mpr ⟨j, hj, ?_⟩
    rw [Bool.and_eq_true, Bool.and_eq_true]
    exact ⟨⟨decide_eq_true other, occupies⟩, List.any_eq_true.mpr ⟨key, hkey, decide_eq_true wanted⟩⟩
  rw [free] at busy
  cases busy

theorem overActive_share (unused : id ∉ js.map Job.id) (share : overActive js (buildJob lib opts id clock) q = false) :
    (js.countP fun j => j.service = (buildJob lib opts id clock).service && j.occupies : Int) <
    q.normalized.activeJobs := by
  unfold overActive at share
  rw [decide_eq_false_iff_not, not_le] at share
  refine lt_of_eq_of_lt ?_ share
  congr 1
  refine List.countP_congr fun j hj => ?_
  have other : j.id ≠ (buildJob lib opts id clock).id := fun same => unused (List.mem_map.mpr ⟨j, hj, same⟩)
  simp [other]

end

theorem Quota.normalized_pos (q : Quota) : 0 < q.normalized.activeJobs ∧ 0 < q.normalized.leasedTasks := by
  unfold Quota.normalized
  dsimp only
  constructor
  · split_ifs with unset
    · decide
    · exact not_le.mp unset
  · split_ifs with unset
    · decide
    · exact not_le.mp unset

/-! ### Runs -/

theorem Evolves.occupies {j j' : Job} (h : Evolves j j') (occupies : j'.occupies = true) : j.occupies = true := by
  by_contra finished
  rw [Bool.not_eq_true] at finished
  rw [Job.occupies, h.status finished] at occupies
  rw [Job.occupies, occupies] at finished
  cases finished

theorem Evolves.occupancyKeys {j j' : Job} (h : Evolves j j') (lib : Lib) :
    occupancyKeys lib j' = occupancyKeys lib j := by
  have baseline : j'.baseline = j.baseline := (congrArg Job.baseline h.static :)
  have patch : j'.patch = j.patch := (congrArg Job.patch h.static :)
  simp only [Jobs.occupancyKeys, baseline, patch]

theorem Evolves.service {j j' : Job} (h : Evolves j j') : j'.service = j.service := (congrArg Job.service h.static :)

namespace Board
variable {lib : Lib} {q : Quota} {sees : Job → Bool} {tr : Trace} {js js' old : List Job} {op : Op} {resp : Resp}

/-- Two unfinished jobs have no gateway in common. -/
def Exclusive (lib : Lib) (j j' : Job) : Prop :=
  j.occupies = true → j'.occupies = true → (occupancyKeys lib j).Disjoint (occupancyKeys lib j')

def active (js : List Job) (service : List UInt8) : Nat := js.countP fun j => j.service = service && j.occupies

structure Admitted (lib : Lib) (q : Quota) (js : List Job) : Prop where
  gateways : js.Pairwise (Exclusive lib)
  shares : ∀ service, (active js service : Int) ≤ q.normalized.activeJobs

instance : Std.Symm (Exclusive lib) := ⟨fun _ _ exclusive occupies occupies' => (exclusive occupies' occupies).symm⟩

theorem Admitted.empty : Admitted lib q [] := ⟨.nil, fun _ => q.normalized_pos.1.le⟩

theorem Admitted.evolve (admitted : Admitted lib q js) (h : List.Forall₂ Evolves js old) : Admitted lib q old := by
  refine ⟨Lists.pairwise_of_forall₂ h admitted.gateways fun hj hj' exclusive occupies occupies' => ?_,
    fun service => ?_⟩
  · rw [hj.occupancyKeys, hj'.occupancyKeys]
    exact exclusive (hj.occupies occupies) (hj'.occupies occupies')
  · have fewer : active old service ≤ active js service := by
      refine Lists.countP_le_of_forall₂ (fun {j j'} hj counted => ?_) h
      simp only [Bool.and_eq_true, decide_eq_true_eq] at counted ⊢
      exact ⟨hj.service.symm.trans counted.1, hj.occupies counted.2⟩
    exact le_trans (by exact_mod_cast fewer) (admitted.shares service)

theorem Admitted.step (inv : Inv lib tr js) (admitted : Admitted lib q js) (fresh : FreshIDs tr op resp)
    (step : Step lib q sees js op resp js') : Admitted lib q js' := by
  obtain ⟨old, new, rfl, advances, adds⟩ := step.advances inv
  have evolved : List.Forall₂ Evolves js old := advances.imp fun _ _ h => h.evolves
  have kept := admitted.evolve evolved
  cases adds with
  | none => rwa [List.append_nil]
  | @created opts id clock valid free share =>
    have unused : id.text ∉ old.map Job.id := by
      rw [Lists.map_eq_of_forall₂ evolved fun _ _ h => h.id]
      exact inv.unused (fresh id.text (by simp [drawn]))
    refine ⟨?_, fun service => ?_⟩
    · refine List.pairwise_append.mpr ⟨kept.gateways, List.pairwise_singleton _ _, fun j hj j' hj' => ?_⟩
      rw [List.mem_singleton.mp hj']
      exact fun occupies _ => gatewayBusy_disjoint valid unused free hj occupies
    · rw [active, List.countP_append, List.countP_singleton]
      have shares := kept.shares service
      rw [active] at shares
      split_ifs with counted
      · -- the new job takes the share that its check found
        simp only [Bool.and_eq_true, decide_eq_true_eq] at counted
        have one := overActive_share unused share
        rw [counted.1] at one
        push_cast
        omega
      · simpa using shares

end Board

theorem admitted_of_run {lib : Lib} {q : Quota} {k : StoreKind} {tr : Trace} {s : (k.machine lib q).State}
    (run : (k.machine lib q).Run FreshIDs tr s) : Board.Admitted lib q (k.jobs lib q s) := by
  refine run.inv (P := fun _ s => Board.Admitted lib q (k.jobs lib q s)) ?_ ?_
  · rw [k.jobs_init]
    exact Board.Admitted.empty
  · intro tr s op resp s' run admitted fresh step
    exact admitted.step (StoreKind.inv_of_run id run) fresh (StoreKind.board_step id run fresh step)

/-! ### The texts of jobs -/

section
variable {lib : Lib} {q : Quota} {j : Job}

theorem stateByPlan_map {f : Task → Task} (planID : ∀ t, (f t).planID = t.planID) (state : ∀ t, (f t).state = t.state)
    (ts : List Task) :
    stateByPlan (ts.map f) = stateByPlan ts := by
  funext d
  simp [stateByPlan, ← List.map_reverse, List.find?_map, Function.comp_def, planID, state]

/-- The text of a job keeps everything but strings that are not UTF-8. -/
theorem JobOK.stored (ok : JobOK lib j) : JobOK lib (Postgres.stored lib j) := by
  obtain ⟨⟨held, operators, ids, justified⟩, settled, status, -⟩ := ok
  unfold Justified at justified
  unfold Settled at settled
  have plan := stateByPlan_map (f := fun t => { t with result := Wire.stepResult.reread t.result }) (fun _ => rfl)
    (fun _ => rfl) j.tasks
  have graded (j : Job) (ok : TasksOK j.id j.tasks) (settled : Settled j.tasks)
      (status : j.status = if j.canceled then .canceled else jobStatus j.tasks) : JobOK lib (j.graded lib) :=
        ⟨ok, settled, status, rfl⟩
  refine graded _ ⟨?_, ?_, ?_, ?_⟩ ?_ ?_
  · exact List.forall_mem_map.mpr held
  · exact List.forall_mem_map.mpr operators
  · intro i t ht
    obtain ⟨u, hu, rfl⟩ := Option.map_eq_some_iff.mp (List.getElem?_map .. ▸ ht)
    exact ids i u hu
  · unfold Justified
    dsimp only
    rw [plan]
    exact List.forall_mem_map.mpr justified
  · unfold Settled
    dsimp only
    rw [plan]
    exact List.forall_mem_map.mpr settled
  · simpa [jobStatus, List.any_map, Function.comp_def] using status

@[simp] theorem stored_id : (Postgres.stored lib j).id = j.id := rfl

@[simp] theorem stored_created : (Postgres.stored lib j).created = j.created := rfl

@[simp] theorem stored_status : (Postgres.stored lib j).status = j.status := rfl

@[simp] theorem stored_occupies : (Postgres.stored lib j).occupies = j.occupies := rfl

@[simp] theorem stored_occupancyKeys : occupancyKeys lib (Postgres.stored lib j) = occupancyKeys lib j := rfl

theorem stored_static (valid : Utf8.Valid j.service) : (Postgres.stored lib j).static = j.static := by
  have service : Json.Codec.bytes.reread j.service = j.service := Json.Codec.reread_of_plain valid
  simp [Postgres.stored, Postgres.decodeJob, Job.graded, Job.static, service, Task.static, Function.comp_def]

end

/-- The service of the job that a call creates. -/
def Op.service : Op → List UInt8
  | .create opts _ _ => clipService opts.service
  | _ => []

/-- A call on a table gives no service that is cut inside a character. -/
def Whole (k : StoreKind) (op : Op) : Prop := k = .postgres → Utf8.Valid op.service

instance (k : StoreKind) (op : Op) : Decidable (Whole k op) := inferInstanceAs (Decidable (_ → _))

section
variable {lib : Lib} {q : Quota} {k : StoreKind} {tr : Trace} {s : (k.machine lib q).State}

theorem Board.CreatedIn.service {j : Job} (created : Board.CreatedIn lib tr j) (whole : ∀ e ∈ tr, Whole .postgres e.1) :
    Utf8.Valid j.service := by
  obtain ⟨opts, id, clock, mem, -, static⟩ := created
  have valid := whole _ mem rfl
  have service := congrArg Job.service static
  simp only [Job.static, buildJob, refreshJob, Job.graded] at service
  rw [service]
  simpa only [Op.service] using valid

/-- Writing the jobs of a store changes nothing that admission depends on. -/
theorem StoreKind.written_keeps (rep : k.Rep lib q s) (inv : Board.Inv lib tr (k.jobs lib q s))
    (whole : ∀ e ∈ tr, Whole k e.1)
    (admitted : Board.Admitted lib q (k.jobs lib q s)) :
    k.Rep lib q (k.written lib q s) ∧ Board.Inv lib tr (k.jobs lib q (k.written lib q s)) ∧
      Board.Admitted lib q (k.jobs lib q (k.written lib q s)) := by
  cases k with
  | memory => exact ⟨rep, inv, admitted⟩
  | postgres =>
    have jobs : StoreKind.jobs lib q .postgres (StoreKind.written lib q .postgres s) = (Postgres.jobs s).map
      (Postgres.stored lib) := by
      simp [StoreKind.jobs, StoreKind.written, Postgres.jobs, Postgres.written, Function.comp_def]
    have static {j : Job} (hj : j ∈ Postgres.jobs s) : (Postgres.stored lib j).static = j.static :=
      stored_static ((inv.created j hj).service whole)
    refine ⟨?_, ?_, ?_⟩
    · refine List.forall_mem_map.mpr fun r hr => ⟨?_, ?_, ?_⟩
      · simpa using (rep r hr).id
      · simpa using (rep r hr).created
      · simpa using (rep r hr).status
    · rw [jobs]
      refine ⟨?_, List.forall_mem_map.mpr fun j hj => (inv.ok j hj).stored, List.forall_mem_map.mpr fun j hj => ?_⟩
      · have ids : ((Postgres.jobs s).map Job.id).Nodup := inv.ids
        simpa [Function.comp_def] using ids
      · obtain ⟨opts, id, clock, mem, valid, created⟩ := inv.created j hj
        exact ⟨opts, id, clock, mem, valid, (static hj).trans created⟩
    · rw [jobs]
      refine ⟨admitted.gateways.map _ fun j j' exclusive => ?_, fun service => ?_⟩
      · simpa [Board.Exclusive] using exclusive
      have same : Board.active ((Postgres.jobs s).map (Postgres.stored lib)) service = Board.active
        (Postgres.jobs s) service := by
        rw [Board.active, List.countP_map]
        refine List.countP_congr fun j hj => ?_
        have kept : (Postgres.stored lib j).service = j.service := (congrArg Job.service (static hj) :)
        simp [kept]
      exact same ▸ admitted.shares service

theorem StoreKind.written_ids : (k.jobs lib q (k.written lib q s)).map Job.id = (k.jobs lib q s).map Job.id := by
  cases k with
  | memory => rfl
  | postgres =>
    simp [StoreKind.jobs, StoreKind.written, Postgres.jobs, Postgres.written]

theorem admitted_encoded (run : (k.encoded lib q).Run (fun tr op resp => FreshIDs tr op resp ∧ Whole k op) tr s) :
    k.Rep lib q s ∧ Board.Inv lib tr (k.jobs lib q s) ∧ Board.Admitted lib q (k.jobs lib q s) ∧
    ∀ e ∈ tr, Whole k e.1 := by
  refine run.inv (P := fun tr (s : (k.encoded lib q).State) => k.Rep lib q s ∧ Board.Inv lib tr (k.jobs lib q s) ∧
    Board.Admitted lib q (k.jobs lib q s) ∧ ∀ e ∈ tr, Whole k e.1) ?_ ?_
  · have empty : k.jobs lib q (k.encoded lib q).init = [] := k.jobs_init
    rw [empty]
    exact ⟨k.rep_init, .empty, .empty, by simp⟩
  · rintro tr s op resp s' - ⟨rep, inv, admitted, whole⟩ ⟨fresh, own⟩ ⟨mid, step, rfl⟩
    obtain ⟨matched, rep'⟩ := k.step_matched rep inv fresh step
    have whole : ∀ e ∈ tr ++ [(op, resp)], Whole k e.1 := by
      simpa [or_imp, forall_and] using ⟨fun a b => whole (a, b), own⟩
    obtain ⟨rep'', inv'', admitted''⟩ :=
      StoreKind.written_keeps rep' (Board.Step.inv inv fresh matched) whole (admitted.step inv fresh matched)
    exact ⟨rep'', inv'', admitted'', whole⟩

end

/-- In every run in which no service is cut inside a character, unless the store is in memory, unfinished jobs have
    different gateways and are within the share of their service; a `Create` that is refused adds no job. -/
theorem admission {lib : Lib} {q : Quota} {k : StoreKind} {tr : Trace} {s : (k.encoded lib q).State}
    (run : (k.encoded lib q).Run (fun tr op resp => FreshIDs tr op resp ∧ Whole k op) tr s) :
    (∀ j ∈ k.jobs lib q s, ∀ j' ∈ k.jobs lib q s, j ≠ j' → j.occupies = true → j'.occupies = true →
        (occupancyKeys lib j).Disjoint (occupancyKeys lib j')) ∧
      (∀ service, ((k.jobs lib q s).countP fun j => j.service = service && j.occupies : Int) ≤
        q.normalized.activeJobs) ∧
      ∀ opts id clock e s', FreshIDs tr (.create opts id clock) (.err e) →
        (k.encoded lib q).Step s (.create opts id clock) (.err e) s' →
        (k.jobs lib q s').map Job.id = (k.jobs lib q s).map Job.id := by
  obtain ⟨rep, inv, admitted, -⟩ := admitted_encoded run
  refine ⟨fun j hj j' hj' other => ?_, admitted.shares, ?_⟩
  · exact admitted.gateways.forall hj hj' other
  · rintro opts id clock e s' fresh ⟨mid, step, rfl⟩
    obtain ⟨old, new, eq, advances, adds⟩ := (k.step_matched rep inv fresh step).1.advances inv
    cases adds with
    | none =>
      rw [StoreKind.written_ids, eq, List.append_nil]
      exact Lists.map_eq_of_forall₂ advances fun _ _ h => h.evolves.id

namespace Sample

def otherID : ID := ⟨"a2a2a2a2a2a2a2a2", by decide, by decide⟩
def otherAttempt : ID := ⟨"00000000000000b3", by decide, by decide⟩

def createOther : Op :=
  .create { opts [{ id := "env", kind := "env" }] with baseline := "http://c", patch := "http://d" } otherID clock

def leaseOther : Op := .lease { id := "v" } 7000000 otherAttempt

end Sample

namespace Sample

def playEncoded (q : Quota) (ops : List Op) : Trace × Postgres :=
  Machine.play (StoreKind.encodedCall Lib.plain q .postgres) (StoreKind.machine Lib.plain q .postgres).init ops

def cutService : String := .ofList (List.replicate 127 'a' ++ ['é'])

def createCut : List Op :=
  [.create { opts [{ id := "env", kind := "env" }] with service := cutService } jobID clock,
    .create { opts [{ id := "env", kind := "env" }] with
      baseline := "http://c", patch := "http://d", service := cutService } otherID clock]

end Sample

open Sample in
theorem admission_sample :
    ((StoreKind.jobs Lib.plain {} .postgres (playEncoded {} [create, createOther]).2).countP
      fun j => j.service = [] && j.occupies : Int) ≤ 4 := by
  have run : (StoreKind.encoded Lib.plain {} .postgres).Run (fun tr op resp => FreshIDs tr op resp ∧ Whole .postgres op)
      (playEncoded {} [create, createOther]).1 (playEncoded {} [create, createOther]).2 :=
    StoreKind.encoded_run .postgres (by decide +kernel)
  obtain ⟨-, shares, -⟩ := admission run
  exact shares []

open Sample in
/-- The service of the first job is read back with a replacement character and does not count for the second one. -/
theorem admission_fails :
    (StoreKind.encoded Lib.plain { activeJobs := 1 } .postgres).Run FreshIDs
    (playEncoded { activeJobs := 1 } createCut).1
      (playEncoded { activeJobs := 1 } createCut).2 ∧
    ∃ service, ¬((StoreKind.jobs Lib.plain { activeJobs := 1 } .postgres
      (playEncoded { activeJobs := 1 } createCut).2).countP
      fun j => j.service = service && j.occupies : Int) ≤ (Quota.normalized { activeJobs := 1 }).activeJobs :=
  ⟨StoreKind.encoded_run .postgres (by decide +kernel),
    Utf8.encode (List.replicate 127 'a' ++ ['\ufffd']), by decide +kernel⟩

/-! ### Gateways of running work -/

/-- A job with a task that may run is unfinished, unless it was canceled or one of its tasks failed. -/
theorem JobOK.occupies_of_live {lib : Lib} {j : Job} (ok : JobOK lib j) (uncanceled : j.canceled = false)
    (unfailed : ∀ t ∈ j.tasks, t.state ≠ .failed) {t : Task} (ht : t ∈ j.tasks) (live : Live t) :
    j.occupies = true := by
  have status := ok.status
  rw [uncanceled, if_neg Bool.false_ne_true, jobStatus_of_live ht live,
    if_neg fun ⟨u, hu, failed⟩ => unfailed u hu failed] at status
  simp [Job.occupies, status]

/-- Two leased tasks of different jobs, neither of them canceled or with a failed task, have no gateway in
    common. -/
theorem leased_gateways {lib : Lib} {q : Quota} {k : StoreKind} {tr : Trace} {s : (k.machine lib q).State}
    (run : (k.machine lib q).Run FreshIDs tr s) {j j' : Job} (hj : j ∈ k.jobs lib q s) (hj' : j' ∈ k.jobs lib q s)
    (other : j ≠ j') (leased : ∃ t ∈ j.tasks, t.state = .leased) (leased' : ∃ t ∈ j'.tasks, t.state = .leased)
    (going : j.canceled = false ∧ ∀ t ∈ j.tasks, t.state ≠ .failed)
    (going' : j'.canceled = false ∧ ∀ t ∈ j'.tasks, t.state ≠ .failed) :
    (occupancyKeys lib j).Disjoint (occupancyKeys lib j') := by
  have inv := StoreKind.inv_of_run id run
  obtain ⟨t, ht, leased⟩ := leased
  obtain ⟨t', ht', leased'⟩ := leased'
  exact (admitted_of_run run).gateways.forall hj hj' other
    ((inv.ok j hj).occupies_of_live going.1 going.2 ht (.inr leased))
    ((inv.ok j' hj').occupies_of_live going'.1 going'.2 ht' (.inr leased'))

open Sample in
theorem leased_gateways_sample :
    ∃ j ∈ StoreKind.jobs Lib.plain {} .memory (play .memory [create, lease, createOther, leaseOther]).2,
    ∃ j' ∈ StoreKind.jobs Lib.plain {} .memory (play .memory [create, lease, createOther, leaseOther]).2,
      j ≠ j' ∧ (occupancyKeys Lib.plain j).Disjoint (occupancyKeys Lib.plain j') := by
  have run := Sample.run .memory [create, lease, createOther, leaseOther] (by decide +kernel)
  obtain ⟨j, hj, j', hj', other, leased, leased', going, going'⟩ :
      ∃ j ∈ StoreKind.jobs Lib.plain {} .memory (play .memory [create, lease, createOther, leaseOther]).2,
      ∃ j' ∈ StoreKind.jobs Lib.plain {} .memory (play .memory [create, lease, createOther, leaseOther]).2, j ≠ j' ∧
      (∃ t ∈ j.tasks, t.state = .leased) ∧ (∃ t ∈ j'.tasks, t.state = .leased) ∧
      (j.canceled = false ∧ ∀ t ∈ j.tasks, t.state ≠ .failed) ∧
        (j'.canceled = false ∧ ∀ t ∈ j'.tasks, t.state ≠ .failed) := by
    decide +kernel
  exact ⟨j, hj, j', hj', other, leased_gateways run hj hj' other leased leased' going going'⟩

namespace Sample

def handover : List Op :=
  [create, lease, cancel, .create (opts [{ id := "env", kind := "env" }]) otherID clock, leaseOther]

end Sample

open Sample in
/-- The leased task of a canceled job keeps its gateway while the next job runs there. -/
theorem leased_gateways_fail :
    ((StoreKind.memory.machine Lib.plain {}).Run FreshIDs (play .memory handover).1 (play .memory handover).2 ∧
      ∃ j ∈ StoreKind.jobs Lib.plain {} .memory (play .memory handover).2,
        ∃ j' ∈ StoreKind.jobs Lib.plain {} .memory (play .memory handover).2, j ≠ j' ∧
          (∃ t ∈ j.tasks, t.state = .leased) ∧ (∃ t ∈ j'.tasks, t.state = .leased) ∧
          ∃ key ∈ occupancyKeys Lib.plain j, key ∈ occupancyKeys Lib.plain j') ∧
    ((StoreKind.postgres.machine Lib.plain {}).Run FreshIDs (play .postgres handover).1 (play .postgres handover).2 ∧
      ∃ j ∈ StoreKind.jobs Lib.plain {} .postgres (play .postgres handover).2,
        ∃ j' ∈ StoreKind.jobs Lib.plain {} .postgres (play .postgres handover).2, j ≠ j' ∧
          (∃ t ∈ j.tasks, t.state = .leased) ∧ (∃ t ∈ j'.tasks, t.state = .leased) ∧
          ∃ key ∈ occupancyKeys Lib.plain j, key ∈ occupancyKeys Lib.plain j') :=
  ⟨⟨Sample.run .memory handover (by decide +kernel), by decide +kernel⟩,
    ⟨Sample.run .postgres handover (by decide +kernel), by decide +kernel⟩⟩

end Aquila.Jobs

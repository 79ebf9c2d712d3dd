import Mathlib.Data.List.MinMax
import Aquila.Jobs.Admission

/-! Which task is leased next: of the jobs that could be given out the first one whose service has the fewest leased
    tasks. -/

namespace Aquila.Jobs

/-- A task that a worker can be given. -/
def Task.Free (t : Task) : Prop := t.state = .ready ∧ t.operator = false

/-- A job that a worker can be given a task of. -/
structure Eligible (all : List Job) (wantJob : String) (q : Quota) (j : Job) : Prop where
  wanted : wantJob = "" ∨ j.id = wantJob
  live : j.canceled = false ∧ j.status ≠ .canceled
  share : (leasedOf all j.service : Int) < q.normalized.leasedTasks
  free : ∃ t ∈ j.tasks, t.Free

/-- What the loop of `pickReady` sees in a job. -/
def candidate (all : List Job) (wantJob : String) (q : Quota) (j : Job) (ji : Nat) : Option Pick :=
  if (wantJob ≠ "" ∧ j.id ≠ wantJob) ∨ (j.canceled ∨ j.status = .canceled) ∨
    q.leasedTasks ≤ leasedOf all j.service then none
  else (j.tasks.findIdx? fun t => t.state = .ready && !t.operator).map fun ti =>
    { job := ji, task := ti, leased := leasedOf all j.service }

def candidates (all : List Job) (wantJob : String) (q : Quota) : List Pick :=
  all.zipIdx.filterMap fun x => candidate all wantJob q.normalized x.1 x.2

variable {all : List Job} {wantJob : String} {q : Quota} {j : Job} {i : Nat} {p : Pick}

theorem pickJob_eq (best : Option Pick) : pickJob all wantJob q best j i =
    (candidate all wantJob q j i).elim best (List.argAux (fun b c => b.leased < c.leased) best) := by
  unfold pickJob candidate
  by_cases other : wantJob ≠ "" ∧ j.id ≠ wantJob
  · rw [if_pos other, if_pos (.inl other)]
    rfl
  by_cases canceled : j.canceled ∨ j.status = .canceled
  · rw [if_neg other, if_pos canceled, if_pos (.inr (.inl canceled))]
    rfl
  by_cases full : q.leasedTasks ≤ leasedOf all j.service
  · rw [if_neg other, if_neg canceled, if_pos full, if_pos (.inr (.inr full))]
    rfl
  have open_ : ¬((wantJob ≠ "" ∧ j.id ≠ wantJob) ∨ (j.canceled ∨ j.status = .canceled) ∨
    q.leasedTasks ≤ leasedOf all j.service) :=
    not_or.mpr ⟨other, not_or.mpr ⟨canceled, full⟩⟩
  rw [if_neg other, if_neg canceled, if_neg full, if_neg open_]
  cases j.tasks.findIdx? fun t => t.state = .ready && !t.operator with
  | none => split_ifs <;> rfl
  | some ti =>
    cases best with
    | none => rfl
    | some b =>
      simp only [Option.any_some, decide_eq_true_eq, Option.map_some, Option.elim_some, List.argAux]
      by_cases less : leasedOf all j.service < b.leased
      · rw [if_neg (not_le.mpr less), if_pos less]
      · rw [if_pos (not_lt.mp less), if_neg less]

/-- The loop takes the first of the best candidates. -/
theorem pickReady_eq_argmin : pickReady all wantJob q = (candidates all wantJob q).argmin Pick.leased := by
  have step (best : Option Pick) (x : Job × Nat) := @pickJob_eq all wantJob q.normalized x.1 x.2 best
  rw [pickReady, List.argmin, candidates, List.foldl_filterMap]
  refine List.foldl_ext _ _ _ fun best x _ => (step best x).trans ?_
  cases candidate all wantJob q.normalized x.1 x.2 <;> rfl

theorem free_iff {t : Task} : (t.state = .ready && !t.operator) = true ↔ t.Free := by
  rw [Bool.and_eq_true, decide_eq_true_eq, Bool.not_eq_true', Task.Free]

/-- The index of the first task that is free. -/
structure FirstFree (j : Job) (ti : Nat) : Prop where
  free : ∃ t, j.tasks[ti]? = some t ∧ t.Free
  first : ∀ k < ti, ∀ t, j.tasks[k]? = some t → ¬t.Free

theorem findIdx?_eq_some_iff {ti : Nat} : (j.tasks.findIdx? fun t => t.state = .ready && !t.operator) = some ti ↔
    FirstFree j ti := by
  rw [List.findIdx?_eq_some_iff_getElem]
  constructor
  · rintro ⟨inside, free, first⟩
    refine ⟨⟨_, List.getElem?_eq_getElem inside, free_iff.mp free⟩, fun k less t ht => ?_⟩
    obtain ⟨hk, rfl⟩ := List.getElem?_eq_some_iff.mp ht
    exact fun isFree => first k less (free_iff.mpr isFree)
  · rintro ⟨⟨t, ht, free⟩, first⟩
    obtain ⟨inside, rfl⟩ := List.getElem?_eq_some_iff.mp ht
    exact ⟨inside, free_iff.mpr free, fun k less isFree => first k less _ (List.getElem?_eq_getElem _)
      (free_iff.mp isFree)⟩

theorem candidate_eq_some_iff : candidate all wantJob q.normalized j i = some p ↔
    Eligible all wantJob q j ∧ FirstFree j p.task ∧ p.job = i ∧ p.leased = leasedOf all j.service := by
  unfold candidate
  constructor
  · intro h
    rcases ite_eq_iff.mp h with ⟨-, h⟩ | ⟨open_, h⟩
    · cases h
    obtain ⟨ti, found, rfl⟩ := Option.map_eq_some_iff.mp h
    obtain ⟨wanted, open_⟩ := not_or.mp open_
    obtain ⟨live, share⟩ := not_or.mp open_
    have first := findIdx?_eq_some_iff.mp found
    obtain ⟨t, ht, free⟩ := first.free
    refine ⟨⟨?_, ?_, not_le.mp share, t, List.mem_of_getElem? ht, free⟩, first, rfl, rfl⟩
    · exact or_iff_not_imp_left.mpr fun some => not_not.mp fun other => wanted ⟨some, other⟩
    · exact ⟨Bool.eq_false_iff.mpr (not_or.mp live).1, (not_or.mp live).2⟩
  · rintro ⟨eligible, first, rfl, leased⟩
    have open_ : ¬((wantJob ≠ "" ∧ j.id ≠ wantJob) ∨ (j.canceled ∨ j.status = .canceled) ∨
      q.normalized.leasedTasks ≤ leasedOf all j.service) := by
      rintro (⟨some, other⟩ | (canceled | canceled) | full)
      · exact eligible.wanted.elim some other
      · rw [eligible.live.1] at canceled
        cases canceled
      · exact eligible.live.2 canceled
      · exact absurd eligible.share (not_lt.mpr full)
    rw [if_neg open_, findIdx?_eq_some_iff.mpr first, ← leased]
    rfl

theorem mem_candidates : p ∈ candidates all wantJob q ↔
    ∃ j, all[p.job]? = some j ∧ Eligible all wantJob q j ∧ FirstFree j p.task ∧ p.leased = leasedOf all j.service := by
  rw [candidates, List.mem_filterMap]
  constructor
  · rintro ⟨⟨j, i⟩, mem, same⟩
    obtain ⟨eligible, first, rfl, leased⟩ := candidate_eq_some_iff.mp same
    exact ⟨j, List.mem_zipIdx_iff_getElem?.mp mem, eligible, first, leased⟩
  · rintro ⟨j, hj, eligible, first, leased⟩
    exact ⟨(j, p.job), List.mem_zipIdx_iff_getElem?.mpr hj, candidate_eq_some_iff.mpr ⟨eligible, first, rfl, leased⟩⟩

theorem pairwise_candidates : (candidates all wantJob q).Pairwise (·.job < ·.job) := by
  have indices : (all.zipIdx.map Prod.snd).Pairwise (· < ·) := by
    rw [List.zipIdx_map_snd]
    exact List.pairwise_lt_range'
  refine List.pairwise_filterMap.mpr ((List.pairwise_map.mp indices).imp fun {x y} less p hp p' hp' => ?_)
  obtain ⟨-, -, job, -⟩ := candidate_eq_some_iff.mp hp
  obtain ⟨-, -, job', -⟩ := candidate_eq_some_iff.mp hp'
  rwa [job, job']

theorem job_le_of_idxOf_le {p' : Pick} (hp : p ∈ candidates all wantJob q) (hp' : p' ∈ candidates all wantJob q)
    (le : (candidates all wantJob q).idxOf p ≤ (candidates all wantJob q).idxOf p') : p.job ≤ p'.job := by
  have order := @pairwise_candidates all wantJob q
  generalize candidates all wantJob q = l at hp hp' le order
  rcases le.lt_or_eq with less | same
  · have := List.pairwise_iff_getElem.mp order _ _ (List.idxOf_lt_length_of_mem hp)
      (List.idxOf_lt_length_of_mem hp') less
    rw [List.getElem_idxOf, List.getElem_idxOf] at this
    exact this.le
  · rw [(List.idxOf_inj hp).mp same]

theorem Eligible.candidate (h : Eligible all wantJob q j) (hj : all[i]? = some j) :
    ∃ p ∈ candidates all wantJob q, p.job = i ∧ p.leased = leasedOf all j.service := by
  obtain ⟨t, ht, free⟩ := h.free
  cases found : j.tasks.findIdx? fun t => t.state = .ready && !t.operator with
  | none => exact absurd (free_iff.mpr free) (by simpa using List.findIdx?_eq_none_iff.mp found t ht)
  | some ti =>
    refine ⟨{ job := i, task := ti, leased := leasedOf all j.service }, ?_, rfl, rfl⟩
    exact mem_candidates.mpr ⟨j, hj, h, findIdx?_eq_some_iff.mp found, rfl⟩

/-- A task is found exactly if some job could be given out; it is the first free task of the first job among those
    of the services with the fewest leased tasks. -/
theorem pickReady_fair (all : List Job) (wantJob : String) (q : Quota) :
    ((pickReady all wantJob q).isSome = true ↔ ∃ j ∈ all, Eligible all wantJob q j) ∧
    (∀ p, pickReady all wantJob q = some p → ∃ j, all[p.job]? = some j ∧ Eligible all wantJob q j ∧ FirstFree j p.task ∧
      ∀ (i : Nat) k, all[i]? = some k → Eligible all wantJob q k → leasedOf all j.service ≤ leasedOf all k.service ∧
        (leasedOf all k.service = leasedOf all j.service → p.job ≤ i)) ∧
    ∀ k ∈ all, Eligible all wantJob q k → ∃ p j, pickReady all wantJob q = some p ∧ all[p.job]? = some j ∧
      (leasedOf all j.service : Int) < q.normalized.leasedTasks ∧ leasedOf all j.service ≤ leasedOf all k.service := by
  have best {p : Pick} (h : pickReady all wantJob q = some p) : ∃ j, all[p.job]? = some j ∧ Eligible all wantJob q j ∧
    FirstFree j p.task ∧
      ∀ (i : Nat) k, all[i]? = some k → Eligible all wantJob q k → leasedOf all j.service ≤ leasedOf all k.service ∧
        (leasedOf all k.service = leasedOf all j.service → p.job ≤ i) := by
    rw [pickReady_eq_argmin, List.argmin_eq_some_iff] at h
    obtain ⟨mem, least, earliest⟩ := h
    obtain ⟨j, hj, eligible, first, leased⟩ := mem_candidates.mp mem
    refine ⟨j, hj, eligible, first, fun i k hk other => ?_⟩
    obtain ⟨p', mem', rfl, leased'⟩ := other.candidate hk
    rw [← leased, ← leased']
    exact ⟨least p' mem', fun same => job_le_of_idxOf_le mem mem' (earliest p' mem' same.le)⟩
  have found {k : Job} (hk : k ∈ all) (eligible : Eligible all wantJob q k) :
    ∃ p, pickReady all wantJob q = some p := by
    obtain ⟨i, hi⟩ := List.mem_iff_getElem?.mp hk
    obtain ⟨p, mem, -⟩ := eligible.candidate hi
    rw [← Option.isSome_iff_exists, ← Option.ne_none_iff_isSome, pickReady_eq_argmin, Ne, List.argmin_eq_none]
    exact List.ne_nil_of_mem mem
  refine ⟨⟨fun some => ?_, ?_⟩, fun p h => best h, fun k hk eligible => ?_⟩
  · obtain ⟨p, hp⟩ := Option.isSome_iff_exists.mp some
    obtain ⟨j, hj, eligible, -⟩ := best hp
    exact ⟨j, List.mem_of_getElem? hj, eligible⟩
  · rintro ⟨k, hk, eligible⟩
    exact Option.isSome_iff_exists.mpr (found hk eligible)
  · obtain ⟨p, hp⟩ := found hk eligible
    obtain ⟨j, hj, below, -, least⟩ := best hp
    obtain ⟨i, hi⟩ := List.mem_iff_getElem?.mp hk
    exact ⟨p, j, hp, hj, below.share, (least i k hi eligible).1⟩

def Sample.shared : List Job :=
  [{ id := "a", service := bytes "shop",
     tasks := [{ id := "a0", jobID := "a", planID := "p", kind := "replay", state := .leased },
       { id := "a1", jobID := "a", planID := "q", kind := "replay", state := .ready }] },
    { id := "b", service := bytes "ledger", tasks := [{
      id := "b0", jobID := "b", planID := "p", kind := "replay", state := .ready }] }]

theorem pickReady_fair_shared : ∃ p j, pickReady Sample.shared "" {} = some p ∧ Sample.shared[p.job]? = some j ∧
    (leasedOf Sample.shared j.service : Int) < ({} : Quota).normalized.leasedTasks ∧
    leasedOf Sample.shared j.service ≤ leasedOf Sample.shared (bytes "ledger") := by
  refine (pickReady_fair Sample.shared "" {}).2.2 (Sample.shared[1]) (by decide) ⟨.inl rfl,
    ⟨rfl, by decide⟩, by decide, ?_⟩
  exact ⟨_, List.mem_singleton_self _, rfl, rfl⟩

end Aquila.Jobs

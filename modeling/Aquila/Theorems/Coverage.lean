import Aquila.Theorems.Earned

/-! The coverage that an artifact reports agrees with its decision, route by route. -/

namespace Aquila.Evidence
open Validate (Blocker codeRouteMissed sortedBlockers blockIf covered)
variable {b : Blocker} {i : Validate.Input}

variable {lib : Lib}

/-! ### Routes -/

/-- Some behavior result compares a request with the label of `r` that both sides refused by auth. -/
def Refused (res : Plan.Evidence) (r : Request) : Prop :=
  ∃ s ∈ res.steps, s.kind = Plan.kindBehavior ∧ ∃ d ∈ s.steps, d.authRejected = true ∧
    d.method ++ " " ++ d.path = r.method ++ " " ++ r.path

theorem mem_refused {res : Plan.Evidence} {r : Request} : (r.method ++ " " ++ r.path) ∈ refused res ↔
    Refused res r := by
  simp only [refused, Refused, List.mem_flatMap, List.mem_filter, List.mem_map, decide_eq_true_eq, and_assoc]

theorem refused_iff {res : Plan.Evidence} (words : ∀ s ∈ res.steps, ∀ d ∈ s.steps, ' ' ∉ d.method.toList) {r : Request}
    (word : ' ' ∉ r.method.toList) : Refused res r ↔ ∃ s ∈ res.steps, s.kind = Plan.kindBehavior ∧
      ∃ d ∈ s.steps, d.authRejected = true ∧ d.method = r.method ∧ d.path = r.path := by
  refine exists_congr fun s => and_congr_right fun hs => and_congr_right fun _ => exists_congr fun d =>
    and_congr_right fun hd => ?_
  refine and_congr_right fun _ => ⟨label_inj (words s hs d hd) word, ?_⟩
  rintro ⟨method, path⟩
  rw [method, path]

theorem routes_sorted (rep : Impact.Report) : (Impact.runtimeRoutes lib rep).Pairwise (· ≤ ·) :=
  List.pairwise_insertionSort _ _

/-- A route is reached by one of its requests exactly if the policy finds it covered by the whole workload. -/
theorem reached_eq_covered (work : List Request) (res : Plan.Evidence) (route : String) :
    reached lib work res route = covered lib [route]
    (work.map fun r => { method := r.method, path := r.path }) res := by
  rw [Bool.eq_iff_iff]
  simp only [reached, hits, covered, List.any_eq_true, List.mem_filter, List.mem_singleton, List.mem_map,
    Bool.and_eq_true, decide_eq_true_eq]
  constructor
  · rintro ⟨r, ⟨hr, -⟩, _, rfl, label, matched⟩
    exact ⟨_, ⟨r, hr, rfl⟩, label, matched⟩
  · rintro ⟨_, ⟨r, hr, rfl⟩, label, route', rfl, matched⟩
    exact ⟨r, ⟨hr, matched⟩, _, rfl, label, route', rfl, matched⟩

/-! ### Blockers -/

theorem mem_sortedBlockers {bs : List Blocker} : b ∈ sortedBlockers bs ↔ b ∈ bs := List.mem_insertionSort _

/-- A blocker for another reason than a missed route. -/
def Other (b : Blocker) : Prop := b.code ≠ codeRouteMissed

theorem other_of_mem_blockIf {c : Prop} [Decidable c] {x : Blocker} (other : Other b)
    (h : x ∈ blockIf c b) : Other x := by
  unfold blockIf at h
  split_ifs at h
  · rwa [List.mem_singleton.mp h]
  · exact nomatch h

theorem other_of_code {code subject : String} (h : code ≠ codeRouteMissed) : Other { code, subject } := h

theorem other_stepBlockers {kinds : List String} {results : List Plan.StepResult}
    (h : b ∈ Validate.stepBlockers lib kinds results) : Other b := by
  obtain ⟨kind, -, h⟩ := List.mem_flatMap.mp (mem_sortedBlockers.mp h)
  rcases List.mem_append.mp h with h | h
  · split_ifs at h
    · obtain ⟨s, -, h⟩ := List.mem_flatMap.mp h
      rcases List.mem_append.mp h with h | h
      · exact other_of_mem_blockIf (other_of_code (by decide)) h
      · obtain ⟨row, -, rfl⟩ := List.mem_map.mp h
        exact other_of_code (by decide)
    · exact nomatch h
  · split_ifs at h
    · rw [List.mem_singleton.mp h]
      exact other_of_code (by decide)
    · exact other_of_mem_blockIf (other_of_code (by decide)) h

theorem other_targetBlockers (h : b ∈ Validate.targetBlockers lib i) : Other b := by
  rcases List.mem_append.mp (mem_sortedBlockers.mp h) with h | h
  · rcases List.mem_append.mp h with h | h
    · exact other_of_mem_blockIf (other_of_code (by decide)) h
    · exact other_of_mem_blockIf (other_of_code (by decide)) h
  · exact other_of_mem_blockIf (other_of_code (by decide)) h

theorem other_duplicateBlockers (h : b ∈ Validate.duplicateBlockers i) : Other b := by
  obtain ⟨kind, -, h⟩ := List.mem_flatMap.mp (mem_sortedBlockers.mp h)
  exact other_of_mem_blockIf (other_of_code (by decide)) h

theorem other_changeBlockers (h : b ∈ Validate.changeBlockers i) : Other b := by
  rcases List.mem_append.mp (mem_sortedBlockers.mp h) with h | h
  · obtain ⟨path, -, rfl⟩ := List.mem_map.mp h
    exact other_of_code (by decide)
  · split_ifs at h
    · rw [List.mem_singleton.mp h]
      exact other_of_code (by decide)
    · exact other_of_mem_blockIf (other_of_code (by decide)) h

theorem filter_routeMissed (i : Validate.Input) :
    (Validate.blockers lib i).filter (·.code = codeRouteMissed) = Validate.coverageBlockers lib i := by
  have none {bs : List Blocker} (h : ∀ b ∈ bs, Other b) : bs.filter (·.code = codeRouteMissed) = [] := by
    rw [List.filter_eq_nil_iff]
    intro b hb
    simpa [Other] using h b hb
  have one {c : Prop} [Decidable c] {code subject : String} (h : code ≠ codeRouteMissed) :
      (blockIf c { code, subject }).filter (·.code = codeRouteMissed) = [] :=
        none fun _ => other_of_mem_blockIf (other_of_code h)
  have own : (Validate.coverageBlockers lib i).filter (·.code = codeRouteMissed) = Validate.coverageBlockers lib i := by
    refine List.filter_eq_self.mpr fun b hb => ?_
    obtain ⟨route, -, rfl⟩ := List.mem_map.mp (mem_sortedBlockers.mp hb)
    rfl
  rw [Validate.blockers, Validate.revisionBlockers, Validate.revisionBlockers, Validate.requiredStepBlockers]
  simp only [List.filter_append, own, none fun _ => other_targetBlockers, none fun _ => other_duplicateBlockers,
    none fun _ => other_stepBlockers, none fun _ => other_changeBlockers, List.append_nil]
  rw [one (by decide), one (by decide), one (by decide), one (by decide), one (by decide)]
  rfl

theorem subjects_coverageBlockers (sorted : i.impacted.Pairwise (· ≤ ·)) :
    (Validate.coverageBlockers lib i).map (·.subject) = i.impacted.filter fun route =>
    !covered lib [route] i.workload i.result := by
  have order : ((i.impacted.filter fun route => !covered lib [route] i.workload i.result).map fun route =>
      ({ code := codeRouteMissed, subject := route } : Blocker)).Pairwise Blocker.le := by
    refine List.pairwise_map.mpr ((sorted.filter _).imp fun {a b} le => ?_)
    rcases lt_or_eq_of_le le with lt | eq
    · exact .inl lt
    · exact .inr ⟨eq, le_refl _⟩
  rw [Validate.coverageBlockers, ← Validate.eq_sortedBlockers (List.Perm.refl _) order, List.map_map]
  exact List.map_id _

/-! ### Agreement -/

/-- The coverage `c` that is reported for `a` agrees with its decision. -/
structure Agrees (lib : Lib) (i : Input) (a : Artifact) (c : Coverage) : Prop where
  impacted : c.impacted = Impact.runtimeRoutes lib i.impact
  /-- Every impacted route is in one of the two lists, and in one only. -/
  split : ∀ route ∈ c.impacted, (route ∈ c.exercised ↔ route ∉ c.missed)
  within : ∀ route, route ∈ c.exercised ∨ route ∈ c.missed → route ∈ c.impacted
  sublist : c.rejected.Sublist c.missed
  blockers : c.missed = (a.blockers.filter (·.code = codeRouteMissed)).map (·.subject)
  refused : ∀ route, route ∈ c.rejected ↔
    route ∈ c.missed ∧ ∃ r ∈ a.workload, Impact.routeMatches lib route r.method r.path = true ∧ Refused i.result r
  /-- Where methods are words, a request is refused if its own comparison says so. -/
  requests : (∀ s ∈ i.result.steps, ∀ d ∈ s.steps, ' ' ∉ d.method.toList) → ∀ r ∈ a.workload, ' ' ∉ r.method.toList →
    (Refused i.result r ↔ ∃ s ∈ i.result.steps, s.kind = Plan.kindBehavior ∧
      ∃ d ∈ s.steps, d.authRejected = true ∧ d.method = r.method ∧ d.path = r.path)
  validated : a.validated = true → c.missed = []

theorem build_blockers (marshal : Artifact → Option String) (clock : Time) (i : Input) :
    (build lib marshal clock i).blockers = Validate.blockers lib (assemble lib clock i).policyInput ∧
      ((build lib marshal clock i).validated = true → Validate.blockers lib (assemble lib clock i).policyInput = []) :=
  ⟨rfl, fun validated => (Validate.blockers_eq_nil_iff lib _).mpr (validates_of_build validated)⟩

/-- Without coverage the change has no runtime route; otherwise the coverage agrees with the decision. -/
theorem coverage_agrees (lib : Lib) (marshal : Artifact → Option String) (clock : Time) (i : Input) :
    ((build lib marshal clock i).coverage = none → Impact.runtimeRoutes lib i.impact = []) ∧
      ∀ c, (build lib marshal clock i).coverage = some c → Agrees lib i (build lib marshal clock i) c := by
  have coverage : (build lib marshal clock i).coverage = coverageOf lib i.impact (requests i.workload) i.result := rfl
  have policy : (assemble lib clock i).policyInput.impacted = Impact.runtimeRoutes lib i.impact :=
    coverageOf_impacted ..
  obtain ⟨blocked, validated⟩ := @build_blockers lib marshal clock i
  have missed : ((build lib marshal clock i).blockers.filter (·.code = codeRouteMissed)).map (·.subject) =
      (Impact.runtimeRoutes lib i.impact).filter fun route => !reached lib (requests i.workload) i.result route := by
    rw [blocked, filter_routeMissed, subjects_coverageBlockers (policy ▸ routes_sorted i.impact), policy]
    simp only [reached_eq_covered]
    rfl
  rw [coverage]
  unfold coverageOf
  dsimp only
  constructor
  · intro none
    by_contra routes
    rw [if_neg routes] at none
    exact nomatch none
  · intro c found
    split_ifs at found
    cases found
    refine ⟨rfl, ?_, ?_, ?_, missed.symm, ?_, fun words r _ word => refused_iff words word, ?_⟩
    · intro route hroute
      simp [List.mem_filter, show route ∈ Impact.runtimeRoutes lib i.impact from hroute]
    · rintro route (h | h)
      · exact (List.mem_filter.mp h).1
      · exact (List.mem_filter.mp h).1
    · refine List.monotone_filter_right _ fun route h => ?_
      simp only [rejected, Bool.and_eq_true] at h
      exact h.1
    · intro route
      simp only [rejected, hits, List.mem_filter, Bool.and_eq_true, List.any_eq_true, decide_eq_true_eq,
        mem_refused, and_assoc]
      rfl
    · intro ok
      rw [blocked, validated ok] at missed
      exact missed.symm

namespace Sample

def refusedInput : Input :=
  { impact := { runtime := [{ route := "GET /a" }, { route := "GET /b" }, { route := "GET /c" }] }
    workload := [{ method := "GET", path := "/a" }, { method := "GET", path := "/b" }]
    result := { steps := [{ kind := Plan.kindBehavior, steps :=
      [{ method := "GET", path := "/a", status := "match", baselineStatus := 200, patchStatus := 200 },
        { method := "GET", path := "/b", status := "match", baselineStatus := 401, patchStatus := 401,
          notes := [Replay.noteAuthRejected] }] }] } }

def refusedCoverage : Coverage :=
  { attributions := [{ route := "GET /a", provenance := "" }, { route := "GET /b", provenance := "" },
    { route := "GET /c", provenance := "" }]
    impacted := ["GET /a", "GET /b", "GET /c"]
    exercised := ["GET /a"]
    missed := ["GET /b", "GET /c"]
    rejected := ["GET /b"] }

end Sample

theorem coverage_agrees_sample :
    (build Lib.plain (fun _ => none) 0 Sample.refusedInput).coverage = some Sample.refusedCoverage ∧
    Agrees Lib.plain Sample.refusedInput (build Lib.plain (fun _ => none) 0 Sample.refusedInput)
    Sample.refusedCoverage := by
  have covered : (build Lib.plain (fun _ => none) 0 Sample.refusedInput).coverage =
    some Sample.refusedCoverage := by decide +kernel
  exact ⟨covered, (coverage_agrees Lib.plain (fun _ => none) 0 Sample.refusedInput).2 _ covered⟩

end Aquila.Evidence

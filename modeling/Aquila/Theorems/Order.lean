import Aquila.Net
import Aquila.Theorems.Validate

/-! The decision does not depend on the order of the evidence, nor on the orders that the program leaves open. -/

namespace Aquila.Validate
open Plan (kindBehavior kindLatency)

/-! ### What is left open -/

/-- A list as `sort.Slice` may leave it. -/
structure Sorted (bs out : List Blocker) : Prop where
  perm : out.Perm bs
  sorted : out.Pairwise Blocker.le

/-- The blockers of `duplicateBlockers` before they are sorted, where `order` is the order in which the map is
    iterated. -/
def duplicatesIn (i : Input) (order : List String) : List Blocker :=
  order.flatMap fun kind =>
    blockIf ((i.plan.steps.map (·.kind)).count kind > 1 ∨ (i.result.steps.map (·.kind)).count kind > 1)
      { code := codeDuplicateStep, subject := kind }

/-- The decisions that `Decide` may come to. -/
structure Decides (lib : Lib) (i : Input) (d : Decision) : Prop where
  blockers : ∃ order targets duplicates core required changes coverage,
    order.Perm (i.plan.steps.map (·.kind) ++ i.result.steps.map (·.kind)).dedup ∧
    Sorted (targetBlockers lib i) targets ∧ Sorted (duplicatesIn i order) duplicates ∧
    Sorted (stepBlockers lib coreKinds i.result.steps) core ∧ Sorted (requiredStepBlockers lib i) required ∧
    Sorted (changeBlockers i) changes ∧ Sorted (coverageBlockers lib i) coverage ∧
    d.blockers = blockIf (i.baselineRev.dirty = true) { code := codeDirtyBaseline } ++
      revisionBlockers "baseline" i.baselineRev ++ revisionBlockers "patch" i.patchRev ++
      blockIf (i.baselineRev.tree ≠ "" ∧ i.baselineRev.tree = i.patchRev.tree)
        { code := codeSameTarget, subject := i.baselineRev.tree } ++
      targets ++
      blockIf (lib.toLower (trimSpace i.result.overall) ≠ Replay.verdictMatch)
        { code := codeNotMatch, subject := i.result.overall } ++
      duplicates ++ core ++ required ++ changes ++ coverage
  validated : d.validated = decide (d.blockers = [])
  basis : d.coverageBasis = coverageBasis lib i

theorem sortedBlockers_idem (bs : List Blocker) : sortedBlockers (sortedBlockers bs) = sortedBlockers bs :=
  (eq_sortedBlockers ((List.perm_insertionSort _ _).trans (List.perm_insertionSort _ _))
    (Lists.pairwise_insertionSort_lex Blocker.subject Blocker.code _)).trans rfl

theorem Sorted.self (bs : List Blocker) : Sorted bs (sortedBlockers bs) :=
  ⟨List.perm_insertionSort _ _, Lists.pairwise_insertionSort_lex Blocker.subject Blocker.code bs⟩

theorem Sorted.eq_of_sorted {bs out : List Blocker} (h : Sorted (sortedBlockers bs) out) : out = sortedBlockers bs :=
  eq_sortedBlockers (h.perm.trans (List.perm_insertionSort _ _)) h.sorted

theorem Sorted.duplicates {i : Input} {order : List String} {out : List Blocker}
    (perm : order.Perm (i.plan.steps.map (·.kind) ++ i.result.steps.map (·.kind)).dedup)
    (h : Sorted (duplicatesIn i order) out) :
    out = duplicateBlockers i :=
  eq_sortedBlockers (h.perm.trans (perm.flatMap fun _ _ => List.Perm.refl _)) h.sorted

/-- `Decide` comes to one decision, which is that of the model. -/
theorem decides_iff {lib : Lib} {i : Input} {d : Decision} : Decides lib i d ↔ d = i.decide lib := by
  constructor
  · rintro ⟨⟨order, targets, duplicates, core, required, changes, coverage, perm, h₁, h₂, h₃, h₄, h₅, h₆, all⟩,
      validated, basis⟩
    have blockers : d.blockers = Validate.blockers lib i := by
      rw [all, h₁.eq_of_sorted, h₂.duplicates perm, h₃.eq_of_sorted, h₄.eq_of_sorted, h₅.eq_of_sorted, h₆.eq_of_sorted]
      rfl
    rw [blockers] at validated
    cases d
    simp only at blockers validated basis
    rw [Input.decide, blockers, validated, basis]
  · rintro rfl
    refine ⟨⟨_, _, _, _, _, _, _, List.Perm.refl _, Sorted.self _, Sorted.self _, Sorted.self _, Sorted.self _,
      Sorted.self _, Sorted.self _, ?_⟩, rfl, rfl⟩
    simp only [targetBlockers, stepBlockers, requiredStepBlockers, changeBlockers, coverageBlockers,
      sortedBlockers_idem]
    rfl

/-! ### Reordered evidence -/

/-- A result with its latency rows and its deltas in another order. -/
structure Rearranged (s s' : Plan.StepResult) : Prop where
  kind : s.kind = s'.kind
  verdict : s.verdict = s'.verdict
  latency : s.latency.Perm s'.latency
  steps : s.steps.Perm s'.steps

/-- Results in another order, each rearranged. -/
def Shuffled (l l' : List Plan.StepResult) : Prop := ∃ mid, List.Forall₂ Rearranged l mid ∧ mid.Perm l'

/-- An input with the same evidence in another order. -/
structure Reordered (i i' : Input) : Prop where
  baselineRev : i.baselineRev = i'.baselineRev
  patchRev : i.patchRev = i'.patchRev
  baseline : i.baseline = i'.baseline
  patch : i.patch = i'.patch
  overall : i.result.overall = i'.result.overall
  plan : i.plan.steps.Perm i'.plan.steps
  results : Shuffled i.result.steps i'.result.steps
  workload : i.workload.Perm i'.workload
  impacted : i.impacted.Perm i'.impacted
  bound : i.changes.bound.Perm i'.changes.bound
  unanalyzed : i.changes.unanalyzed.Perm i'.changes.unanalyzed
  attributions : i.attributions.Perm i'.attributions

namespace Shuffled
variable {l l' : List Plan.StepResult}

theorem flatMap {β : Type} {f : Plan.StepResult → List β} (h : ∀ {s s'}, Rearranged s s' → (f s).Perm (f s'))
    (sh : Shuffled l l') :
    (l.flatMap f).Perm (l'.flatMap f) := by
  obtain ⟨mid, each, perm⟩ := sh
  refine List.Perm.trans ?_ (perm.flatMap fun _ _ => List.Perm.refl _)
  clear perm
  induction each with
  | nil => exact List.Perm.refl _
  | cons head _ ih => exact (h head).append ih

theorem exists_iff {P : Plan.StepResult → Prop} (h : ∀ {s s'}, Rearranged s s' → (P s ↔ P s')) (sh : Shuffled l l') :
    (∃ s ∈ l, P s) ↔ ∃ s ∈ l', P s := by
  obtain ⟨mid, each, perm⟩ := sh
  constructor
  · rintro ⟨s, hs, p⟩
    obtain ⟨s', hs', same⟩ := Lists.forall₂_mem_left each hs
    exact ⟨s', perm.mem_iff.mp hs', (h same).mp p⟩
  · rintro ⟨s', hs', p⟩
    obtain ⟨s, hs, same⟩ := Lists.forall₂_mem_right each (perm.mem_iff.mpr hs')
    exact ⟨s, hs, (h same).mpr p⟩

theorem map_kind (sh : Shuffled l l') : (l.map (·.kind)).Perm (l'.map (·.kind)) := by
  have each := sh.flatMap (f := fun s => [s.kind]) fun same => by rw [same.kind]
  simpa only [← List.map_eq_flatMap] using each

end Shuffled

/-! ### Each section -/

theorem sortedBlockers_congr {bs bs' : List Blocker} (perm : bs.Perm bs') : sortedBlockers bs = sortedBlockers bs' :=
  eq_sortedBlockers ((List.perm_insertionSort _ bs).trans perm)
    (Lists.pairwise_insertionSort_lex Blocker.subject Blocker.code bs)

theorem min?_perm {l l' : List Int} (perm : l.Perm l') : l.min? = l'.min? := by
  cases least : l.min? with
  | none =>
    rw [List.min?_eq_none_iff] at least
    subst least
    rw [perm.nil_eq.symm]
    rfl
  | some m =>
    rw [List.min?_eq_some_iff] at least
    refine (List.min?_eq_some_iff.mpr ⟨perm.mem_iff.mp least.1, fun b hb => ?_⟩).symm
    exact least.2 b (perm.mem_iff.mpr hb)

section
variable {s s' : Plan.StepResult} (same : Rearranged s s')
include same

theorem latencyN_rearranged : latencyN s = latencyN s' := by
  rw [latencyN, latencyN, min?_perm (same.latency.map _)]

theorem latencyBlockers_rearranged : (latencyBlockers s).Perm (latencyBlockers s') := by
  rw [latencyBlockers, latencyBlockers, latencyN_rearranged same]
  exact ((same.latency.filter _).map _).append_left _

theorem stepOK_rearranged (lib : Lib) (kind : String) : stepOK lib kind s = stepOK lib kind s' := by
  have shifted : s.latency.any Replay.shifted = s'.latency.any Replay.shifted := by
    rw [Bool.eq_iff_iff, List.any_eq_true, List.any_eq_true]
    simp only [same.latency.mem_iff]
  rw [stepOK, stepOK, same.verdict, latencyN_rearranged same, shifted]

end

theorem answered_shuffled {res res' : Plan.Evidence} (sh : Shuffled res.steps res'.steps) (label : String) :
    label ∈ answered res ↔ label ∈ answered res' := by
  rw [mem_answered, mem_answered]
  refine sh.exists_iff fun same => ?_
  simp only [same.kind, same.steps.mem_iff]

theorem covered_reordered {lib : Lib} {i i' : Input} (h : Reordered i i') (route : String) :
    covered lib [route] i.workload i.result = covered lib [route] i'.workload i'.result := by
  rw [Bool.eq_iff_iff]
  simp only [covered, List.any_eq_true, Bool.and_eq_true, decide_eq_true_eq, h.workload.mem_iff,
    answered_shuffled h.results]

theorem stepBlockers_shuffled {lib : Lib} {kinds kinds' : List String} {l l' : List Plan.StepResult}
    (perm : kinds.Perm kinds')
    (sh : Shuffled l l') : stepBlockers lib kinds l = stepBlockers lib kinds' l' := by
  refine sortedBlockers_congr (perm.flatMap fun kind _ => ?_)
  have member {l : List Plan.StepResult} {P : Plan.StepResult → Prop} :
      (∃ s ∈ l.filter (·.kind = kind), P s) ↔ ∃ s ∈ l, s.kind = kind ∧ P s := by simp [and_assoc]
  have failed : (∃ s ∈ l.filter (·.kind = kind), !stepOK lib kind s) ↔ ∃ s ∈ l'.filter (·.kind = kind),
    !stepOK lib kind s := by
    rw [member, member]
    exact sh.exists_iff fun same => by rw [same.kind, stepOK_rearranged same]
  have missing : l.filter (·.kind = kind) = [] ↔ l'.filter (·.kind = kind) = [] := by
    have some' {l : List Plan.StepResult} : l.filter (·.kind = kind) = [] ↔ ¬∃ s ∈ l, s.kind = kind := by simp
    rw [some', some']
    exact not_congr (sh.exists_iff fun same => by rw [same.kind])
  have rows : ((l.filter (·.kind = kind)).flatMap latencyBlockers).Perm
    ((l'.filter (·.kind = kind)).flatMap latencyBlockers) := by
    have guard (l : List Plan.StepResult) : (l.filter (·.kind = kind)).flatMap latencyBlockers =
        l.flatMap fun s => if s.kind = kind then latencyBlockers s else [] := by
      induction l with
      | nil => rfl
      | cons s l ih =>
        by_cases here : s.kind = kind
        · simp [here, ih]
        · simp [here, ih]
    rw [guard, guard]
    refine sh.flatMap fun same => ?_
    rw [same.kind]
    split_ifs
    · exact latencyBlockers_rearranged same
    · exact List.Perm.refl _
  refine List.Perm.append ?_ ?_
  · split_ifs
    · exact rows
    · exact List.Perm.refl _
  · simp only [missing, blockIf, failed]
    exact List.Perm.refl _

section
variable {lib : Lib} {i i' : Input} (h : Reordered i i')
include h

theorem targetBlockers_reordered : targetBlockers lib i = targetBlockers lib i' := by
  rw [targetBlockers, targetBlockers, h.baseline, h.patch]

theorem duplicateBlockers_reordered : duplicateBlockers i = duplicateBlockers i' := by
  have planned := h.plan.map (·.kind)
  have executed := h.results.map_kind
  refine sortedBlockers_congr (((planned.append executed).dedup).flatMap fun kind _ => ?_)
  rw [planned.count_eq, executed.count_eq]

theorem requiredKinds_reordered : (requiredKinds i.plan).Perm (requiredKinds i'.plan) := by
  have kinds := (h.plan.filter fun s => s.required && !s.operator && s.kind ∉ coreKinds).map (·.kind)
  unfold requiredKinds
  exact (List.reverse_perm _).trans
    ((((List.reverse_perm _).trans (kinds.trans (List.reverse_perm _).symm)).dedup).trans
    (List.reverse_perm _).symm)

theorem changeBlockers_reordered : changeBlockers i = changeBlockers i' := by
  have bound : i.changes.bound = [] ↔ i'.changes.bound = [] :=
    ⟨fun none => (none ▸ h.bound).nil_eq.symm, fun none => (none ▸ h.bound).eq_nil⟩
  have impacted : i.impacted = [] ↔ i'.impacted = [] :=
    ⟨fun none => (none ▸ h.impacted).nil_eq.symm, fun none => (none ▸ h.impacted).eq_nil⟩
  refine sortedBlockers_congr ((h.unanalyzed.map _).append ?_)
  simp only [bound, blockIf, impacted]
  exact List.Perm.refl _

theorem coverageBlockers_reordered : coverageBlockers lib i = coverageBlockers lib i' := by
  refine sortedBlockers_congr (List.Perm.map _ ?_)
  simp only [covered_reordered h]
  exact h.impacted.filter _

theorem coverageBasis_reordered : coverageBasis lib i = coverageBasis lib i' := by
  have some' (route : String) (p : String → Bool) :
    (((i.attributions.filter (·.route = route)).map (·.provenance)).any p) =
      (((i'.attributions.filter (·.route = route)).map (·.provenance)).any p) := by
    rw [Bool.eq_iff_iff, List.any_eq_true, List.any_eq_true]
    simp only [((h.attributions.filter _).map _).mem_iff]
  have any (p : String → Bool) : ((i.impacted.filter fun route => covered lib [route] i.workload i.result).any p) =
      ((i'.impacted.filter fun route => covered lib [route] i'.workload i'.result).any p) := by
    rw [Bool.eq_iff_iff, List.any_eq_true, List.any_eq_true]
    simp only [List.mem_filter, covered_reordered h, h.impacted.mem_iff]
  simp only [coverageBasis, some', any]

theorem decide_reordered : i.decide lib = i'.decide lib := by
  have all : blockers lib i = blockers lib i' := by
    rw [blockers, blockers, h.baselineRev, h.patchRev, h.overall, targetBlockers_reordered h,
      duplicateBlockers_reordered h, stepBlockers_shuffled (List.Perm.refl coreKinds) h.results, requiredStepBlockers,
        requiredStepBlockers,
      stepBlockers_shuffled (requiredKinds_reordered h) h.results, changeBlockers_reordered h,
        coverageBlockers_reordered h]
  rw [Input.decide, Input.decide, all, coverageBasis_reordered h]

end

/-- Whatever order the evidence comes in, and whatever order the program's maps and sorts take, `Decide` comes to one
    decision. -/
theorem decide_order_free (lib : Lib) (i i' : Input) (h : Reordered i i') :
    ∃ d, ∀ x, (Decides lib i x ↔ x = d) ∧ (Decides lib i' x ↔ x = d) := by
  refine ⟨i.decide lib, fun x => ⟨decides_iff, ?_⟩⟩
  rw [decide_reordered h]
  exact decides_iff

namespace Sample

def rows : List Replay.StepLatency := [{ method := "GET", path := "/a" }, { method := "GET", path := "/b" }]

def results : List Plan.StepResult :=
  [{ kind := Plan.kindEnv, verdict := "prepared" }, { kind := kindLatency, latency := rows }]

def evidence : Input := { result := { steps := results }, impacted := ["GET /a", "GET /b"] }

def reversed : Input :=
  { result := { steps := [{ kind := kindLatency, latency := rows.reverse },
    { kind := Plan.kindEnv, verdict := "prepared" }] }
    impacted := ["GET /b", "GET /a"] }

theorem reordered : Reordered evidence reversed := by
  refine ⟨rfl, rfl, rfl, rfl, rfl, List.Perm.refl _, ?_, List.Perm.refl _, List.Perm.swap _ _ _, List.Perm.refl _,
    List.Perm.refl _, List.Perm.refl _⟩
  refine ⟨[{ kind := Plan.kindEnv, verdict := "prepared" }, { kind := kindLatency, latency := rows.reverse }], ?_,
    List.Perm.swap _ _ _⟩
  refine .cons ⟨rfl, rfl, List.Perm.refl _, List.Perm.refl _⟩ (.cons ⟨rfl, rfl, ?_, List.Perm.refl _⟩ .nil)
  exact (List.reverse_perm _).symm

end Sample

theorem decide_order_free_sample : Reordered Sample.evidence Sample.reversed ∧
    ∃ d, ∀ x, (Decides Lib.plain Sample.evidence x ↔ x = d) ∧ (Decides Lib.plain Sample.reversed x ↔ x = d) :=
  ⟨Sample.reordered, decide_order_free Lib.plain Sample.evidence Sample.reversed Sample.reordered⟩

end Aquila.Validate

import Aquila.Lib.Fold
import Aquila.Plan
import Aquila.Theorems.Replay

/-! What `Execute` has done when it returns evidence: which replays it holds, and what the verdict of each
    kind of step says about them. -/

namespace Aquila.Plan
open Replay hiding Step
variable {base patch : String} {world : World} {dag : DAG} {w : List Replay.Step} {ev : Evidence} {data : ExecData}
  {s : Step}

/-! ### Verdicts -/

theorem toLower_verdict (lib : Lib) :
    ∀ v ∈ [verdictMatch, verdictDiffer, verdictIncomplete, verdictSkipped, verdictSamples, verdictPrepared],
      lib.toLower (trimSpace v) = v := by
  simp only [List.mem_cons, List.not_mem_nil, or_false, forall_eq_or_imp, forall_eq]
  exact ⟨rfl, rfl, rfl, rfl, rfl, rfl⟩

theorem compareFirst_verdict_mem (lib : Lib) (base patch : List Result) :
    (compareFirst lib base patch).verdict ∈ [verdictMatch, verdictDiffer, verdictIncomplete] := by
  unfold compareFirst Replay.compare
  split
  · dsimp only
    split_ifs <;> simp
  · simp

theorem compareFirst_match {lib : Lib} {base patch : List Result}
    (h : (compareFirst lib base patch).verdict = verdictMatch) :
    ∃ b bs p ps, base = b :: bs ∧ patch = p :: ps ∧ List.Forall₂ (Agree lib) b.steps p.steps ∧
      (compareFirst lib base patch).steps = List.zipWith (compareObs lib) b.steps p.steps := by
  unfold compareFirst at h ⊢
  split at h
  · rename_i b bs p ps
    change (Replay.compare lib b p).verdict = verdictMatch at h
    exact ⟨b, bs, p, ps, rfl, rfl, compare_match h, rfl⟩
  · exact absurd h (by decide : verdictIncomplete ≠ verdictMatch)

theorem compareBurst_verdict_mem (base patch : List Result) :
    (compareBurst base patch).verdict ∈ [verdictMatch, verdictDiffer, verdictIncomplete] := by
  unfold compareBurst
  dsimp only
  split_ifs <;> simp

theorem compareBurst_match {base patch : List Result} (h : (compareBurst base patch).verdict = verdictMatch) :
    (burstErrors base).1 = (burstErrors patch).1 := by
  have differ_ne : verdictDiffer ≠ verdictMatch := by decide
  have incomplete_ne : verdictIncomplete ≠ verdictMatch := by decide
  unfold compareBurst at h
  dsimp only at h
  split_ifs at h with none_ empty more less
  · exact absurd h incomplete_ne
  · exact absurd h incomplete_ne
  · exact absurd h differ_ne
  · exact absurd h differ_ne
  · omega

/-! ### The evidence -/

structure Replays (world : World) (dag : DAG) (w : List Replay.Step) (url : Side → String) (data : ExecData) :
    Prop where
  pos : 0 < (replayRepeats dag).1.toNat
  base : data.base =
    (List.range (replayRepeats dag).1.toNat).map (replayed (world.replay .baseline) (url .baseline) w)
  patch : data.patch = (List.range (replayRepeats dag).1.toNat).map (replayed (world.replay .patch) (url .patch) w)

structure Bursts (world : World) (dag : DAG) (w : List Replay.Step) (url : Side → String) (data : ExecData) :
    Prop where
  base : data.baseBurst =
    (List.range (concurrencyN dag).1.toNat).map (replayed (world.burst .baseline) (url .baseline) w)
  patch : data.patchBurst = (List.range (concurrencyN dag).1.toNat).map (replayed (world.burst .patch) (url .patch) w)

/-- What an execution has done when it returns evidence. -/
structure Executed (lib : Lib) (world : World) (dag : DAG) (base patch : String) (w : List Replay.Step)
    (url : Side → String) (data : ExecData) (ev : Evidence) : Prop where
  parsedBase : parseTarget lib base = .ok (url .baseline)
  parsedPatch : parseTarget lib patch = .ok (url .patch)
  envErr : data.envErr = probeEnv lib world dag base patch
  replays : data.envErr = none → (replayRepeats dag).2 = true → Replays world dag w url data
  bursts : data.envErr = none → (concurrencyN dag).2 = true → Bursts world dag w url data
  fault : ∀ e ∈ data.fault, e.2.kind = kindFaultStatus
  steps : ev.steps = dag.steps.map (evalStep lib · data)

theorem probeFault_names (lib : Lib) (world : World) (i : Nat) (s : Step) (base patch : String) (w : List Replay.Step) :
    (probeFault lib world i s base patch w).id = s.id ∧ (probeFault lib world i s base patch w).kind = s.kind := by
  unfold probeFault
  dsimp only
  split
  · exact ⟨rfl, rfl⟩
  · split
    · exact ⟨rfl, rfl⟩
    · split
      · exact ⟨rfl, rfl⟩
      · exact ⟨rfl, rfl⟩
      · split_ifs <;> exact ⟨rfl, rfl⟩

theorem mem_execData_fault {lib : Lib}
    {replays bursts : List Result × List Result} {e : String × StepResult}
    (he : e ∈ (execData lib world dag base patch w replays bursts).fault) :
    ∃ i s, s.kind = kindFaultStatus ∧ e = (s.id, probeFault lib world i s base patch w) := by
  obtain ⟨⟨s, i⟩, -, hs⟩ := List.mem_filterMap.mp he
  dsimp only at hs
  split_ifs at hs with isFault
  exact ⟨i, s, isFault.1, (Option.some.inj hs).symm⟩

theorem execData_fault_kind {lib : Lib}
    {replays bursts : List Result × List Result} :
    ∀ e ∈ (execData lib world dag base patch w replays bursts).fault, e.2.kind = kindFaultStatus := by
  intro e he
  obtain ⟨i, s, isFault, rfl⟩ := mem_execData_fault he
  exact (probeFault_names lib world i s base patch w).2.trans isFault

theorem checkTarget_none {lib : Lib} {raw : String} (h : checkTarget lib raw = none) :
    ∃ url, parseTarget lib raw = .ok url := by
  unfold checkTarget at h
  cases parsed : parseTarget lib raw with
  | error e => rw [parsed] at h; exact nomatch h
  | ok url => exact ⟨url, rfl⟩

theorem bothSides_ok {need : Bool} {runs : Side → Except String (List Result)} {out : List Result × List Result}
    (h : bothSides need runs = .ok out) (needed : need = true) : runs .baseline = .ok out.1 ∧
    runs .patch = .ok out.2 := by
  subst needed
  unfold bothSides at h
  cases hb : runs .baseline with
  | error e => rw [hb] at h; exact nomatch h
  | ok b =>
    cases hp : runs .patch with
    | error e => rw [hb, hp] at h; exact nomatch h
    | ok p =>
      rw [hb, hp] at h
      obtain rfl := Except.ok.inj h
      exact ⟨rfl, rfl⟩

/-- The steps of `Execute`: it parses the targets, replays what the plan needs, and evaluates the plan. -/
theorem execute_eq_ok {lib : Lib}
    (h : execute lib world dag base patch w = .ok ev) :
    ∃ (target : Side → String) (replays bursts : List Result × List Result), target .baseline = base ∧
    target .patch = patch ∧
      (∀ side, ∃ url, parseTarget lib (target side) = .ok url) ∧
      bothSides ((probeEnv lib world dag base patch).isNone && (replayRepeats dag).2) (fun side =>
        repeatRuns lib (world.replay side) (world.replayCtx side) (target side) w (replayRepeats dag).1) = .ok replays ∧
      bothSides ((probeEnv lib world dag base patch).isNone && (concurrencyN dag).2) (fun side =>
        Replay.burst lib (world.burst side) (world.burstCtx side) (target side) w (concurrencyN dag).1) = .ok bursts ∧
      ev = evidence lib dag (execData lib world dag base patch w replays bursts) := by
  unfold execute at h
  split at h
  · exact nomatch h
  · exact nomatch h
  · rename_i baseOK patchOK
    by_cases empty : (((replayRepeats dag).2 || (concurrencyN dag).2) && w.isEmpty) = true
    · simp only [empty, if_true] at h
      exact nomatch h
    simp only [empty] at h
    obtain ⟨replays, hreplays, h⟩ := Fold.bind_ok h
    obtain ⟨bursts, hbursts, h⟩ := Fold.bind_ok h
    refine ⟨_, replays, bursts, rfl, rfl, fun side => ?_, hreplays, hbursts, (Except.ok.inj h).symm⟩
    cases side with
    | baseline => exact checkTarget_none baseOK
    | patch => exact checkTarget_none patchOK

theorem execute_ok {lib : Lib}
    (h : execute lib world dag base patch w = .ok ev) :
    ∃ url data, Executed lib world dag base patch w url data ev := by
  obtain ⟨target, replays, bursts, rfl, rfl, parsed, hreplays, hbursts, rfl⟩ := execute_eq_ok h
  choose url parsed using parsed
  refine ⟨url, execData lib world dag _ _ w replays bursts,
    { parsedBase := parsed _, parsedPatch := parsed _, envErr := rfl, replays := ?_, bursts := ?_, fault := ?_,
      steps := rfl }⟩
  · intro env need
    have env : probeEnv lib world dag (target .baseline) (target .patch) = none := env
    obtain ⟨runBase, runPatch⟩ := bothSides_ok hreplays (by simp [env, need])
    obtain ⟨pos, runBase⟩ := repeatRuns_ok (parsed _) runBase
    exact ⟨by omega, runBase, (repeatRuns_ok (parsed _) runPatch).2⟩
  · intro env need
    have env : probeEnv lib world dag (target .baseline) (target .patch) = none := env
    obtain ⟨runBase, runPatch⟩ := bothSides_ok hbursts (by simp [env, need])
    exact ⟨burst_ok (parsed _) runBase, burst_ok (parsed _) runPatch⟩
  · exact execData_fault_kind

/-! ### Steps -/

theorem mem_fault_of_lookup {id : String} {got : StepResult}
    (found : data.fault.reverse.lookup id = some got) : (id, got) ∈ data.fault := by
  obtain ⟨before, after, split, -⟩ := List.lookup_eq_some_iff.mp found
  exact List.mem_reverse.mp (split ▸ by simp)

theorem evalStep_kind {lib : Lib} (fault : ∀ e ∈ data.fault, e.2.kind = kindFaultStatus) (s : Step) :
    (evalStep lib s data).kind = s.kind := by
  unfold evalStep
  dsimp only
  split_ifs with env operator behavior latency empty samples concurrency tests isFault
  · split <;> rfl
  · rfl
  · rfl
  · rfl
  · rfl
  · rfl
  · rw [concurrency]
    unfold compareBurst
    dsimp only
    split_ifs <;> rfl
  · exact tests.symm
  · split
    · rename_i got found
      rw [isFault]
      exact fault _ (mem_fault_of_lookup found)
    · rfl
  · rfl

theorem evalStep_operator {lib : Lib} (operator : s.operator = true) (data : ExecData) :
    (evalStep lib s data).verdict = verdictSkipped ∧ (evalStep lib s data).steps = [] := by
  simp [evalStep, operator]

theorem evalStep_env {lib : Lib} (kind : s.kind = kindEnv) (operator : s.operator = false)
    (data : ExecData) :
    (evalStep lib s data).verdict = if data.envErr = none then verdictPrepared else verdictIncomplete := by
  simp only [evalStep, kind, operator, Bool.not_false, and_self, if_true]
  cases data.envErr with
  | some e => rfl
  | none => rfl

theorem evalStep_behavior {lib : Lib} (kind : s.kind = kindBehavior) (operator : s.operator = false)
    (data : ExecData) :
    (evalStep lib s data).verdict = (compareFirst lib data.base data.patch).verdict ∧
      (evalStep lib s data).steps = (compareFirst lib data.base data.patch).steps := by
  have notEnv : kindBehavior ≠ kindEnv := by decide
  simp [evalStep, kind, operator, notEnv]

theorem evalStep_latency {lib : Lib} (kind : s.kind = kindLatency) (operator : s.operator = false)
    (data : ExecData) :
    (evalStep lib s data).verdict = verdictIncomplete ∨
      (evalStep lib s data).verdict = verdictSamples ∧
        (evalStep lib s data).latency = Replay.latency data.base data.patch := by
  have others : kindLatency ≠ kindEnv ∧ kindLatency ≠ kindBehavior := by decide
  simp only [evalStep, kind, operator, others, false_and, if_false, if_true, Bool.false_eq_true]
  split_ifs
  · exact .inl rfl
  · exact .inl rfl
  · exact .inr ⟨rfl, rfl⟩

theorem evalStep_concurrency {lib : Lib} (kind : s.kind = kindConcurrency) (operator : s.operator = false)
    (data : ExecData) : (evalStep lib s data).verdict = (compareBurst data.baseBurst data.patchBurst).verdict := by
  have others : kindConcurrency ≠ kindEnv ∧ kindConcurrency ≠ kindBehavior ∧ kindConcurrency ≠ kindLatency := by decide
  simp [evalStep, kind, operator, others]

/-! ### What a plan needs -/

/-- A flag that one element sets and no element unsets is set after the whole fold. -/
theorem foldl_flag {f : Int × Bool → Step → Int × Bool} {s : Step} (sets : ∀ acc, (f acc s).2 = true)
    (keeps : ∀ acc t, acc.2 = true → (f acc t).2 = true) :
    ∀ (steps : List Step) (acc : Int × Bool), acc.2 = true ∨ s ∈ steps → (steps.foldl f acc).2 = true
  | [], acc, h => by simpa using h
  | t :: ts, acc, h => by
    rw [List.foldl_cons]
    refine foldl_flag sets keeps ts _ ?_
    rcases h with set | mem
    · exact .inl (keeps acc t set)
    · rcases List.mem_cons.mp mem with rfl | later
      · exact .inl (sets acc)
      · exact .inr later

theorem replayRepeats_need (mem : s ∈ dag.steps) (operator : s.operator = false)
    (kind : s.kind = kindBehavior ∨ s.kind = kindLatency) : (replayRepeats dag).2 = true := by
  refine foldl_flag (fun acc => ?_) (fun acc t set => ?_) dag.steps _ (.inr mem)
  · rcases kind with kind | kind
    · simp [operator, kind]
    · have ne : kindLatency ≠ kindBehavior := by decide
      simp [operator, kind, ne]
  · dsimp only
    split_ifs <;> first | exact set | rfl

theorem concurrencyN_need (mem : s ∈ dag.steps) (operator : s.operator = false)
    (kind : s.kind = kindConcurrency) : (concurrencyN dag).2 = true := by
  refine foldl_flag (fun acc => ?_) (fun acc t set => ?_) dag.steps _ (.inr mem)
  · simp [operator, kind]
  · dsimp only
    split_ifs <;> first | exact set | rfl

/-! ### Notes -/

theorem valid_bytes (s : String) : Utf8.Valid (bytes s) := bytes_eq_encode s ▸ Utf8.valid_encode s.toList

/-- The notes of deltas are UTF-8. -/
def ValidDeltas (deltas : List Delta) : Prop := ∀ d ∈ deltas, ∀ note ∈ d.notes, Utf8.Valid note

/-- Notes that are all UTF-8, those of the deltas included. -/
def ValidNotes (r : StepResult) : Prop := (∀ note ∈ r.notes, Utf8.Valid note) ∧ ValidDeltas r.steps

instance (r : StepResult) : Decidable (ValidNotes r) :=
  inferInstanceAs (Decidable ((∀ note ∈ r.notes, Utf8.Valid note) ∧ ∀ d ∈ r.steps, ∀ note ∈ d.notes, Utf8.Valid note))

/-- The plan has a step of this kind that is not the operator's. -/
def DAG.Runs (dag : DAG) (kind : String) : Prop := ∃ s ∈ dag.steps, s.kind = kind ∧ s.operator = false

/-- The plan has tests to run. -/
def RunsTests (dag : DAG) : Prop :=
  dag.Runs kindTests ∧ ¬(trimSpace dag.module = "" ∨ dag.testPackages = []) ∧
    ¬dag.testPackages.any fun p => (p ≠ "." && !hasPrefix p "./") || contains p ".."

/-- What is reported of a `go test` that ended with an error: what it wrote, else the error. -/
def TestRun.reported : TestRun → List UInt8
  | .failed output => clipBytes output 512
  | .error output err => if clipBytes output 512 ≠ [] then clipBytes output 512 else err
  | _ => []

/-- The two sides of an execution. -/
def sides (base patch : String) : Side → String
  | .baseline => base
  | .patch => patch

section
variable {lib : Lib} {probe : String → String → Except (List UInt8) Int}

end

end Aquila.Plan

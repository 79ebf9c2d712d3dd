import Aquila.Theorems.Cache
import Aquila.Theorems.Worker

/-! Workers that share a cache, at the same time: whose result a worker returns. -/

namespace Aquila.Worker
open Jobs (Lease replayWorkload)
open Disk (Act Event Pool Trace World Inv Fits Stable Disciplined)
open Aquila.Action (fromLease cacheable)
open Plan (StepResult kindBehavior kindTests)

/-! ### Results of an execution -/

section
variable {lib : Lib} {world : Plan.World} {l : Lease} {out : StepResult}

theorem executeWith_eq_evalStep (h : executeWith lib world none l = .ok out) :
    l.task.operator = false ∧ ∃ replays bursts, out = Plan.evalStep lib (leaseStep l)
      (Plan.execData lib world (leaseDAG l) l.job.baseline l.job.patch (replayWorkload l.job.workload)
        replays bursts) := by
  unfold executeWith at h
  dsimp only at h
  split_ifs at h with operator
  refine ⟨Bool.eq_false_iff.mpr operator, ?_⟩
  obtain ⟨ev, executed, h⟩ := Fold.bind_ok h
  obtain ⟨-, replays, bursts, -, -, -, -, -, rfl⟩ := Plan.execute_eq_ok executed
  refine ⟨replays, bursts, ?_⟩
  generalize Plan.execData lib world (leaseDAG l) l.job.baseline l.job.patch (replayWorkload l.job.workload) replays
    bursts = data at h ⊢
  have only : (Plan.evidence lib (leaseDAG l) data).steps = [Plan.evalStep lib (leaseStep l) data] := rfl
  rw [only] at h
  dsimp only at h
  split_ifs at h
  exact (Except.ok.inj h).symm

theorem executeWith_names (h : executeWith lib world none l = .ok out) : out.id = l.task.planID ∧
    out.kind = l.task.kind := by
  obtain ⟨-, replays, bursts, rfl⟩ := executeWith_eq_evalStep h
  refine ⟨Plan.evalStep_id (fun e he => ?_) (leaseStep l), Plan.evalStep_kind Plan.execData_fault_kind (leaseStep l)⟩
  obtain ⟨i, s, -, rfl⟩ := Plan.mem_execData_fault he
  exact (Plan.probeFault_names lib world i s l.job.baseline l.job.patch (replayWorkload l.job.workload)).1

/-- A worker has no tests to run, so of the kinds that are cached only a behavior step has a result to keep. -/
theorem behavior_of_kept (h : executeWith lib world none l = .ok out) (cached : cacheable (bytes l.task.kind) = true)
    (kept : out.verdict ≠ "incomplete") : l.task.kind = kindBehavior := by
  obtain ⟨work, replays, bursts, rfl⟩ := executeWith_eq_evalStep h
  have kinds : l.task.kind = kindBehavior ∨ l.task.kind = kindTests := by
    simpa [cacheable, bytes_injective.eq_iff] using cached
  refine kinds.resolve_right fun isTests => kept ?_
  have others : kindTests ≠ Plan.kindEnv ∧ kindTests ≠ kindBehavior ∧ kindTests ≠ Plan.kindLatency ∧
    kindTests ≠ Plan.kindConcurrency := by decide
  have has : Plan.hasKind (leaseDAG l) kindTests = true :=
    List.any_eq_true.mpr ⟨leaseStep l, List.mem_singleton.mpr rfl, by simp [leaseStep, isTests]⟩
  have idle : _ = "incomplete" := runTests_leaseDAG world.goTest isTests
  simpa [Plan.evalStep, leaseStep, isTests, others, Plan.execData, has] using idle

end

/-! ### Keys -/

section
variable {t : Jobs.Texts}

theorem plain_fromLease (l : Lease) : (fromLease t l).Plain := by
  have none_ : Utf8.Valid [] := Plan.valid_bytes ""
  have workload : Utf8.Valid ((Action.marshal (.list false (Jobs.stepCodec t)) l.job.workload).getD []) := by
    cases h : Action.marshal (.list false (Jobs.stepCodec t)) l.job.workload with
    | none => exact none_
    | some body =>
      obtain ⟨d, -, rfl⟩ := Option.map_eq_some_iff.mp h
      exact Plan.valid_bytes _
  unfold fromLease
  dsimp only
  by_cases built : l.job.baselineRev.source = sourceBuilt ∧ l.job.patchRev.source = sourceBuilt ∧
    l.job.baselineRev.tree ≠ "" ∧
      l.job.patchRev.tree ≠ ""
  · rw [if_pos built]
    exact ⟨Plan.valid_bytes _, Plan.valid_bytes _, Plan.valid_bytes _, Plan.valid_bytes _, workload, Plan.valid_bytes _⟩
  · rw [if_neg built]
    exact ⟨Plan.valid_bytes _, none_, none_, Plan.valid_bytes _, workload, Plan.valid_bytes _⟩

theorem kind_fromLease (l : Lease) : (fromLease t l).kind = bytes l.task.kind := by
  unfold fromLease
  dsimp only
  split_ifs <;> rfl

end

/-! ### Workers -/

/-- The execution of a lease, and the world as it meets it. -/
abbrev Call := Lease × Plan.World

abbrev Returns := Except Err StepResult

section
variable (lib : Lib) (t : Jobs.Texts) (sha : Cas.Sha256)

def Call.prog (c : Call) : Disk.Prog Returns := executeWithCache lib t sha c.2 c.1

/-- The texts whose digests a call computes, apart from those of files that it reads. -/
def Call.hashed (c : Call) : List (List UInt8) :=
  (fromLease t c.1).text :: ((executeWith lib c.2 none c.1).toOption.bind (Action.marshal Wire.stepResult)).toList

/-- Digests are computed of texts in `S` only. -/
def Hashes (S : Set (List UInt8)) (_ : Trace Call Returns) (i : Act Call) (_ : Event Call Returns) : Prop :=
  ∀ c, i = .start c → ∀ b ∈ c.hashed lib t, b ∈ S

/-- Leases of behavior tasks with the same key are of the same step of a plan. -/
def Apart (L : Set Lease) : Prop :=
  ∀ l ∈ L, ∀ l' ∈ L, l.task.operator = false → l'.task.operator = false → l.task.kind = kindBehavior →
    l'.task.kind = kindBehavior → fromLease t l = fromLease t l' → l.task.planID = l'.task.planID

variable (S : Set (List UInt8)) (L : Set Lease)

/-- A result that may be in the cache. -/
structure Entry (c : Call) (key : Action.Key) (res : StepResult) : Prop where
  key_eq : key = fromLease t c.1
  executed : executeWith lib c.2 none c.1 = .ok res
  behavior : c.1.task.kind = kindBehavior
  lease : c.1 ∈ L
  text : key.text ∈ S

def Post (c : Call) (_ : World Call) (r : Returns) (_ : World Call) : Prop :=
  ∀ out, r = .ok out → out.id = c.1.task.planID ∧ out.kind = c.1.task.kind

variable {lib t sha S L}

theorem Entry.same_key (inj : Set.InjOn sha.sum S) {c : Call} {l : Lease} {key : Action.Key} {res : StepResult}
    (own : Entry lib t S L c key res)
    (mem : (fromLease t l).text ∈ S) (same : key.digest sha = (fromLease t l).digest sha) : key = fromLease t l := by
  have plain : key.Plain := own.key_eq ▸ plain_fromLease c.1
  exact Action.Key.text_inj plain (plain_fromLease l) (inj own.text mem same)

theorem fits_executeWithCache (inj : Set.InjOn sha.sum S) (apart : Apart t L) {c : Call} {w : World Call}
    (inv : Inv (rules sha (Entry lib t S L) S) w) (lease : c.1 ∈ L) (mem : ∀ b ∈ c.hashed lib t, b ∈ S) :
    Fits (rules sha (Entry lib t S L) S) c (Post c w) none w (c.prog lib t sha) := by
  obtain ⟨l, world⟩ := c
  have text : (fromLease t l).text ∈ S := mem _ List.mem_cons_self
  have failed {e : Err} {w w' : World Call} : Post (l, world) w (.error e) w' := by
    rintro out ⟨⟩
  have fresh {out : StepResult} (executed : executeWith lib world none l = .ok out) {w w' : World Call} :
    Post (l, world) w (.ok out) w' := by
    rintro _ ⟨⟩
    exact executeWith_names executed
  -- What is left to do once the cache has no result.
  have store {w' : World Call} (inv' : Inv (rules sha (Entry lib t S L) S) w') {out : StepResult}
      (executed : executeWith lib world none l = .ok out) {k : Option Action.Err → Disk.Prog Returns}
      (refused : ∀ e, k (some e) = .ret (.error (.cache e))) (kept : k none = .ret (.ok out)) :
      Fits (rules sha (Entry lib t S L) S) (l, world) (Post (l, world) w) none w'
        (if cacheable (bytes l.task.kind) then (Action.put sha (fromLease t l) out).bind k else .ret (.ok out)) := by
    split_ifs with cached
    · have own (kept : out.verdict ≠ "incomplete") : Entry lib t S L (l, world) (fromLease t l) out :=
        ⟨rfl, executed, behavior_of_kept executed cached kept, lease, text⟩
      have body (body : List UInt8) (written : Action.marshal Wire.stepResult out = some body) : body ∈ S :=
        mem body (List.mem_cons_of_mem _ (by simp [executed, Except.toOption, written]))
      refine (fits_cachePut inv' inj own body).bind inv' fun r w'' ext done => ?_
      cases r with
      | some e =>
        rw [refused]
        exact failed
      | none =>
        rw [kept]
        exact fresh executed
    · exact fresh executed
  intro e
  cases e with
  | some e => exact failed
  | none =>
    dsimp only
    by_cases operator : l.task.operator = true
    · rw [if_pos operator]
      exact failed
    · rw [if_neg operator]
      by_cases cached : cacheable (bytes l.task.kind) = true
      · rw [if_pos cached]
        have alike (c : Call) (key : Action.Key) (res : StepResult) (own : Entry lib t S L c key res)
            (same : key.digest sha = (fromLease t l).digest sha) (kind : cacheable key.kind = true) :
              cacheable (fromLease t l).kind = true := by
          rw [← own.same_key inj text same]
          exact kind
        refine (fits_cacheGet inv inj alike).bind inv fun r w' ext done => ?_
        rcases done with ⟨e, rfl, -⟩ | ⟨log, found, -, -, rfl, answers⟩
        · exact failed
        · cases found with
          | none =>
            cases executed : executeWith lib world none l with
            | error e => exact failed
            | ok out => exact store ext.inv executed (fun _ => rfl) rfl
          | some hit =>
            rintro _ ⟨⟩
            obtain ⟨c, key, res, body, own, same, written, hit⟩ := answers.hit
            have back := Action.unmarshal_marshal Action.scrubs_stepResult written
            rw [← hit] at back
            obtain rfl := Option.some.inj back
            obtain ⟨id, kind⟩ := executeWith_names own.executed
            have work := (executeWith_eq_evalStep own.executed).1
            have keys : fromLease t c.1 = fromLease t l := own.key_eq.symm.trans (own.same_key inj text same)
            have kinds : c.1.task.kind = l.task.kind := by
              have kinds := congrArg Action.Key.kind keys
              rw [kind_fromLease, kind_fromLease] at kinds
              exact bytes_injective kinds
            have behavior : l.task.kind = kindBehavior := kinds.symm.trans own.behavior
            have plan := apart c.1 own.lease l lease work (Bool.eq_false_iff.mpr operator) own.behavior behavior keys
            exact ⟨id.trans plan, kind.trans kinds⟩
      · rw [if_neg cached]
        cases executed : executeWith lib world none l with
        | error e => exact failed
        | ok out => exact store inv executed (fun _ => rfl) rfl

/-- Digests are computed as promised, and the leases are in `L`. -/
abbrev Promised (lib : Lib) (t : Jobs.Texts) (S : Set (List UInt8)) (L : Set Lease) (tr : Trace Call Returns)
    (i : Act Call)
    (o : Event Call Returns) : Prop :=
  Hashes lib t S tr i o ∧ ∀ c, i = .start c → c.1 ∈ L

theorem disciplined (inj : Set.InjOn sha.sum S) (apart : Apart t L) :
    Disciplined (rules sha (Entry lib t S L) S) Post (Call.prog lib t sha) (Promised lib t S L) where
  stable _ _ _ _ _ _ _ post := post
  fits _ promised inv := fits_executeWithCache inj apart inv (promised.2 _ rfl) (promised.1 _ rfl)

/-- Each of many workers returns a result of its own task, when no two texts have the same digest and the leases of
    behavior tasks are told apart by their keys. -/
theorem executeWithCache_names (inj : Set.InjOn sha.sum S) {tr : Trace Call Returns} {s : Pool Call Returns}
    (run : (Disk.machine (Call.prog lib t sha)).Run (Hashes lib t S) tr s)
    (apart : Apart t {l | ∃ world o, (.start (l, world), o) ∈ tr})
    {n : Nat} {c : Call} {out : StepResult} (mem : (.step n, .returned c (.ok out)) ∈ tr) :
    out.id = c.1.task.planID ∧ out.kind = c.1.task.kind := by
  have kept := @disciplined lib t sha S _ inj apart
  have promised := run.also (B := fun i _ => ∀ c, i = .start c → c.1 ∈ {l | ∃ world o, (.start (l, world), o) ∈ tr})
    fun e he c start =>
    ⟨c.2, e.2, start ▸ he⟩
  obtain ⟨tr₀, mid, after, split⟩ := kept.begun promised mem
  obtain ⟨-, s₀, s₁, -, -, -, post⟩ := kept.post promised split
  exact post out rfl

end

/-! ### Two behavior steps -/

namespace Sample

def twice : Plan.DAG := { steps := [{ id := "a", kind := "behavior" }, { id := "bb", kind := "behavior" }] }

def call (i : Nat) : Call := (lease twice i, env.world Lib.plain (leaseDAG (lease twice i)))

def acts (i j : Nat) : List (Act Call) :=
  .start (call i) :: (List.replicate 16 (.step 0) ++ .start (call j) :: List.replicate 9 (.step 1))

def trace (i j : Nat) : Trace Call Returns := Disk.trace (Call.prog Lib.plain .plain .plain) (acts i j)

def texts (i j : Nat) : List (List UInt8) := (call i).hashed Lib.plain .plain ++ (call j).hashed Lib.plain .plain

theorem start_mem {i j : Nat} {c : Call} (h : .start c ∈ acts i j) : c = call i ∨ c = call j := by
  simpa [acts] using h

theorem run {i j : Nat} (done : trace i j ≠ []) :
    (∃ s, (Disk.machine (Call.prog Lib.plain .plain .plain)).Run (Hashes Lib.plain .plain {b | b ∈ texts i j})
      (trace i j) s) ∧ (trace i j).map Prod.fst = acts i j := by
  refine Disk.run_trace done fun a ha tr o => ?_
  rintro c rfl b hb
  rcases start_mem ha with rfl | rfl
  · exact List.mem_append_left _ hb
  · exact List.mem_append_right _ hb

def last (i j : Nat) : Option (Lease × StepResult) :=
  (trace i j).getLast?.bind fun e =>
    match e with
    | (.step 1, .returned c (.ok out)) => some (c.1, out)
    | _ => none

theorem mem_of_last {i j : Nat} {l : Lease} {out : StepResult} (h : last i j = some (l, out)) :
    ∃ world, (.step 1, .returned (l, world) (.ok out)) ∈ trace i j := by
  obtain ⟨e, he, found⟩ := Option.bind_eq_some_iff.mp h
  split at found
  · cases found
    exact ⟨_, List.mem_of_getLast? he⟩
  · cases found

end Sample

open Sample in
/-- A task is executed again, and its result is found. -/
theorem executeWithCache_names_sample : ∃ c out, (.step 1, .returned c (.ok out)) ∈ trace 0 0 ∧
    out.id = c.1.task.planID ∧ out.kind = c.1.task.kind := by
  have distinct : ∀ a ∈ texts 0 0, ∀ b ∈ texts 0 0, Cas.Sha256.plain.sum a = Cas.Sha256.plain.sum b →
    a = b := by decide +kernel
  have inj : Set.InjOn Cas.Sha256.plain.sum {b | b ∈ texts 0 0} := fun a ha b hb => distinct a ha b hb
  have returned : (last 0 0).isSome = true := by decide +kernel
  obtain ⟨⟨l, out⟩, returned⟩ := Option.isSome_iff_exists.mp returned
  obtain ⟨world, mem⟩ := mem_of_last returned
  obtain ⟨⟨s, run⟩, starts⟩ := Sample.run (List.ne_nil_of_mem mem)
  have apart : Apart .plain {l | ∃ world o, (.start (l, world), o) ∈ trace 0 0} := by
    have only (l : Lease) : (∃ world o, (.start (l, world), o) ∈ trace 0 0) → l = (call 0).1 := by
      rintro ⟨world, o, mem⟩
      rcases start_mem (starts ▸ List.mem_map.mpr ⟨_, mem, rfl⟩) with same | same <;> exact congrArg Prod.fst same
    intro l hl l' hl' _ _ _ _ _
    rw [only l hl, only l' hl']
  have names := executeWithCache_names inj run apart mem
  exact ⟨(l, world), out, mem, names⟩

open Sample in
open Jobs (StoreKind FreshIDs) in
open Jobs.Sample (play) in
/-- Two behavior tasks of a stored job have one key: the worker of the second returns the result of the first. -/
theorem executeWithCache_other_task :
    (StoreKind.memory.machine Lib.plain {}).Run FreshIDs (play .memory (created twice)).1
    (play .memory (created twice)).2 ∧
    (∀ i ∈ [0, 1], (lease twice i).job ∈ StoreKind.memory.jobs Lib.plain {} (play .memory (created twice)).2 ∧
      (lease twice i).task ∈ (lease twice i).job.tasks) ∧
    Set.InjOn Cas.Sha256.plain.sum {b | b ∈ texts 0 1} ∧
    ∃ s, (Disk.machine (Call.prog Lib.plain .plain .plain)).Run (Hashes Lib.plain .plain {b | b ∈ texts 0 1})
    (trace 0 1) s ∧
      ∃ c out, (.step 1, .returned c (.ok out)) ∈ trace 0 1 ∧ c.1.task.planID = "bb" ∧ out.id = "a" := by
  have distinct : ∀ a ∈ texts 0 1, ∀ b ∈ texts 0 1, Cas.Sha256.plain.sum a = Cas.Sha256.plain.sum b →
    a = b := by decide +kernel
  have returned : (last 0 1).any (fun r => r.1.task.planID = "bb" && r.2.id = "a") = true := by decide +kernel
  obtain ⟨⟨l, out⟩, returned, names⟩ := (Option.any_eq_true _ _).mp returned
  obtain ⟨world, mem⟩ := mem_of_last returned
  obtain ⟨⟨s, run⟩, -⟩ := Sample.run (List.ne_nil_of_mem mem)
  refine ⟨Jobs.Sample.run .memory (created twice)
    (by decide +kernel), by decide +kernel, fun a ha b hb => distinct a ha b hb, s, run, (l, world), out, mem, ?_⟩
  simpa using names

end Aquila.Worker

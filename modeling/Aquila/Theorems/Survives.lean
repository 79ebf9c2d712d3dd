import Aquila.Theorems.Cache

/-! Any number of processes use the object store and the cache at the same time, and each of them may stop at any
    point. -/

namespace Aquila.Action
open Disk (Act Event Pool Trace World Link Inv Fits Stable Disciplined)

inductive Call where
  | put (data : List UInt8)
  | get (id : List UInt8)
  | cachePut (key : Key) (res : Plan.StepResult)
  | cacheGet (key : Key)
deriving DecidableEq

inductive Answer where
  | put (r : Except Cas.Err (List UInt8))
  | get (r : Except Cas.Err (List UInt8))
  | cachePut (r : Option Err)
  | cacheGet (r : Except Err (Option Plan.StepResult))
deriving DecidableEq

def Call.prog (sha : Cas.Sha256) : Call → Disk.Prog Answer
  | put data => (Cas.put sha data).bind fun r => .ret (.put r)
  | get id => (Cas.get sha id).bind fun r => .ret (.get r)
  | cachePut key res => (Action.put sha key res).bind fun r => .ret (.cachePut r)
  | cacheGet key => (Action.get sha key).bind fun r => .ret (.cacheGet r)

/-- The texts whose digests a call computes, apart from those of files that it reads. -/
def Call.hashed : Call → List (List UInt8)
  | put data => [data]
  | get _ => []
  | cachePut key res => key.text :: (marshal Wire.stepResult res).toList
  | cacheGet key => [key.text]

/-- The strings of the key of a call are UTF-8. -/
def Call.Plain : Call → Prop
  | cachePut key _ | cacheGet key => key.Plain
  | _ => True

/-- Digests are computed of texts in `S` only. -/
def Hashes (S : Set (List UInt8)) (_ : Trace Call Answer) (i : Act Call) (_ : Event Call Answer) : Prop :=
  ∀ c, i = .start c → ∀ b ∈ c.hashed, b ∈ S

section
variable {sha : Cas.Sha256} {S : Set (List UInt8)}

variable (S) in
def Allowed (c : Call) : Prop := c.Plain ∧ ∀ b ∈ c.hashed, b ∈ S

variable (S) in
def Entry (c : Call) (key : Key) (res : Plan.StepResult) : Prop := c = .cachePut key res ∧ Allowed S c

variable (sha S) in
/-- What holds when a call has returned. -/
def Post : Call → World Call → Answer → World Call → Prop
  | .put b, _, .put r, w => PutDone sha b r w
  | .get id, w₀, .get r, _ => GetDone sha id w₀ r
  | .cachePut _ _, _, .cachePut _, _ => True
  | .cacheGet key, w₀, .cacheGet r, w => LookedUp sha (Entry S) key w₀ r w
  | _, _, _, _ => False

theorem stable_post (c : Call) (w₀ : World Call) (r : Answer) : Stable (rules sha (Entry S) S) (Post sha S c w₀ r) := by
  intro w w' grows inv post
  cases c <;> cases r <;> simp only [Post] at post ⊢
  · exact stable_putDone _ grows inv post
  · exact post
  · exact stable_lookedUp _ grows inv post

theorem Entry.key_eq (inj : Set.InjOn sha.sum S) {c : Call} {key key' : Key} {res : Plan.StepResult}
    (own : Entry S c key' res)
    (plain : key.Plain) (mem : key.text ∈ S) (same : key'.digest sha = key.digest sha) : key' = key := by
  obtain ⟨rfl, plain', mem'⟩ := own
  exact Key.text_inj plain' plain (inj (mem' _ List.mem_cons_self) mem same)

theorem fits_prog (inj : Set.InjOn sha.sum S) {c : Call} {w : World Call} (inv : Inv (rules sha (Entry S) S) w)
    (allowed : Allowed S c) :
    Fits (rules sha (Entry S) S) c (Post sha S c w) none w (c.prog sha) := by
  obtain ⟨plain, mem⟩ := allowed
  cases c with
  | put data => exact (fits_put inj (mem _ List.mem_cons_self)).bind inv fun r w' ext done => done
  | get id => exact (fits_get inv inj).bind inv fun r w' ext done => done
  | cachePut key res =>
    have body : ∀ body, marshal Wire.stepResult res = some body → body ∈ S := fun body written =>
      mem body (List.mem_cons_of_mem _ (by simp [written]))
    exact (fits_cachePut inv inj (fun _ => ⟨rfl, plain, mem⟩) body).bind inv fun r w' ext _ => trivial
  | cacheGet key =>
    refine (fits_cacheGet inv inj fun c key' res own same kind => ?_).bind inv fun r w' ext done => done
    rw [← own.key_eq inj plain (mem _ List.mem_cons_self) same]
    exact kind

/-- The promise that all calls are allowed. -/
abbrev Promised (S : Set (List UInt8)) (tr : Trace Call Answer) (i : Act Call) (o : Event Call Answer) : Prop :=
  Hashes S tr i o ∧ ∀ c, i = .start c → c.Plain

theorem disciplined (inj : Set.InjOn sha.sum S) : Disciplined (rules sha (Entry S) S) (Post sha S) (Call.prog sha)
    (Promised S) where
  stable := stable_post
  fits _ promised inv := fits_prog inj inv ⟨promised.2 _ rfl, promised.1 _ rfl⟩

end

/-! ### A run -/

namespace Sample

def key (path : List UInt8) : Key :=
  { v := keyVersion, kind := bytes "behavior", scope := bytes "job:j", n := 1, healthPath := path }

def res : Plan.StepResult := { id := "b", kind := "behavior", verdict := Plan.verdictSamples }

def acts (k k' : Key) : List (Act Call) :=
  .start (.cachePut k res) :: (List.replicate 14 (.step 0) ++ .start (.cacheGet k') :: List.replicate 8 (.step 1))

def trace (k k' : Key) : Trace Call Answer := Disk.trace (Call.prog .plain) (acts k k')

def texts (k k' : Key) : List (List UInt8) := (Call.cachePut k res).hashed ++ (Call.cacheGet k').hashed

def found (k' : Key) : Act Call × Event Call Answer := (.step 1, .returned (.cacheGet k') (.cacheGet (.ok (some res))))

theorem start_mem {k k' : Key} {c : Call} (h : .start c ∈ acts k k') : c = .cachePut k res ∨ c = .cacheGet k' := by
  simpa [acts] using h

theorem run (k k' : Key) (done : trace k k' ≠ []) :
    (∃ s, (Disk.machine (Call.prog .plain)).Run (Hashes {b | b ∈ texts k k'}) (trace k k') s) ∧
    (trace k k').map Prod.fst = acts k k' := by
  refine Disk.run_trace done fun i hi tr o => ?_
  rintro c rfl b hb
  rcases start_mem hi with rfl | rfl
  · exact List.mem_append_left _ hb
  · exact List.mem_append_right _ hb

end Sample

end Aquila.Action

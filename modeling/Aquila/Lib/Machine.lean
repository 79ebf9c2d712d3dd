import Mathlib.Data.List.Induction
import Mathlib.Logic.Relation

/-! Machines and their runs: the traces of inputs and answers from the initial state. What the environment promises
    about the next event is a parameter of a run. -/

/-- A labelled transition system. A step may have several outcomes. -/
structure Machine (ι ο : Type) where
  State : Type
  init : State
  Step : State → ι → ο → State → Prop

namespace Machine
variable {ι ο : Type}

/-- The runs of `M` whose events all satisfy `A`, given the events before them. -/
inductive Run (M : Machine ι ο) (A : List (ι × ο) → ι → ο → Prop) : List (ι × ο) → M.State → Prop
  | nil : Run M A [] M.init
  | snoc {tr : List (ι × ο)} {s t : M.State} {i : ι} {o : ο} :
      Run M A tr s → A tr i o → M.Step s i o t → Run M A (tr ++ [(i, o)]) t

/-- What a run does after it reached `s` with the trace `tr`. -/
inductive Later (M : Machine ι ο) (A : List (ι × ο) → ι → ο → Prop) (tr : List (ι × ο)) (s : M.State) :
    List (ι × ο) → M.State → Prop
  | refl : Later M A tr s tr s
  | snoc {tr' : List (ι × ο)} {t u : M.State} {i : ι} {o : ο} :
      Later M A tr s tr' t → A tr' i o → M.Step t i o u → Later M A tr s (tr' ++ [(i, o)]) u

/-- Whatever the machine does with an input, it answers `o` and reaches a state with `P`. -/
structure Answers (M : Machine ι ο) (s : M.State) (i : ι) (o : ο) (P : M.State → Prop) : Prop where
  some : ∃ t, M.Step s i o t
  all : ∀ {o' t}, M.Step s i o' t → o' = o ∧ P t

variable {M : Machine ι ο} {A : List (ι × ο) → ι → ο → Prop} {tr tr' : List (ι × ο)} {s t : M.State}

theorem Answers.of_total {i : ι} {o : ο} {P : M.State → Prop} (total : ∃ o' t, M.Step s i o' t)
    (all : ∀ {o' t}, M.Step s i o' t → o' = o ∧ P t) : M.Answers s i o P := by
  obtain ⟨o', t, step⟩ := total
  obtain ⟨rfl, -⟩ := all step
  exact ⟨⟨t, step⟩, all⟩

/-- What holds initially and is kept by every step of a run holds after every run. -/
theorem Run.inv {P : List (ι × ο) → M.State → Prop} (init : P [] M.init)
    (step : ∀ {tr s i o t}, M.Run A tr s → P tr s → A tr i o → M.Step s i o t → P (tr ++ [(i, o)]) t)
    (run : M.Run A tr s) : P tr s := by
  induction run with
  | nil => exact init
  | snoc run ha hs ih => exact step run ih ha hs

theorem Run.later (run : M.Run A tr s) (h : M.Later A tr s tr' t) : M.Run A tr' t := by
  induction h with
  | refl => exact run
  | snoc _ ha hs ih => exact .snoc ih ha hs

/-- What holds at some point of a run and is kept by every step holds from then on. -/
theorem Later.inv {P : List (ι × ο) → M.State → Prop} (now : P tr s)
    (step : ∀ {tr' t i o u}, M.Later A tr s tr' t → P tr' t → A tr' i o → M.Step t i o u → P (tr' ++ [(i, o)]) u)
    (h : M.Later A tr s tr' t) : P tr' t := by
  induction h with
  | refl => exact now
  | snoc h ha hs ih => exact step h ih ha hs

/-- A preorder that every step of a run respects relates the states at its two ends. -/
theorem Later.rel {R : M.State → M.State → Prop} (refl : ∀ s, R s s)
    (trans : ∀ {s t u}, R s t → R t u → R s u)
    (step : ∀ {tr s i o t}, M.Run A tr s → A tr i o → M.Step s i o t → R s t)
    (run : M.Run A tr s) (h : M.Later A tr s tr' t) : R s t := by
  induction h with
  | refl => exact refl s
  | snoc h ha hs ih => exact trans ih (step (run.later h) ha hs)

theorem Run.fired (run : M.Run A tr s) {e : ι × ο} (he : e ∈ tr) :
    ∃ tr₀ s₀ t₀, M.Run A tr₀ s₀ ∧ A tr₀ e.1 e.2 ∧ M.Step s₀ e.1 e.2 t₀ := by
  induction run with
  | nil => cases he
  | @snoc tr s t i o run ha hs ih =>
    rcases List.mem_append.mp he with he | he
    · exact ih he
    · obtain rfl := List.mem_singleton.mp he
      exact ⟨tr, s, t, run, ha, hs⟩

theorem Run.split {rest : List (ι × ο)} (run : M.Run A (tr ++ rest) s) : ∃ s₀, M.Run A tr s₀ ∧
    M.Later A tr s₀ (tr ++ rest) s := by
  induction rest using List.reverseRecOn generalizing s with
  | nil =>
    rw [List.append_nil] at run ⊢
    exact ⟨s, run, .refl⟩
  | append_singleton rest e ih =>
    generalize eq : tr ++ (rest ++ [e]) = all at run ⊢
    cases run with
    | nil => simp at eq
    | @snoc tr' s' _ i o run ha step =>
      rw [← List.append_assoc] at eq
      obtain ⟨rfl, last⟩ := List.append_inj' eq rfl
      obtain ⟨s₀, run₀, later⟩ := ih run
      exact ⟨s₀, run₀, .snoc later ha step⟩

theorem Run.also {B : ι → ο → Prop} (run : M.Run A tr s) (h : ∀ e ∈ tr, B e.1 e.2) :
    M.Run (fun tr i o => A tr i o ∧ B i o) tr s := by
  induction run with
  | nil => exact .nil
  | snoc _ ha hs ih => exact .snoc (ih fun e he => h e (List.mem_append_left _ he)) ⟨ha, h _ List.mem_concat_self⟩ hs

theorem Later.also {B : ι → ο → Prop} (later : M.Later A tr s tr' t) (h : ∀ e ∈ tr', B e.1 e.2) :
    M.Later (fun tr i o => A tr i o ∧ B i o) tr s tr' t := by
  induction later with
  | refl => exact .refl
  | snoc _ ha hs ih => exact .snoc (ih fun e he => h e (List.mem_append_left _ he)) ⟨ha, h _ List.mem_concat_self⟩ hs

theorem Later.trans {tr'' : List (ι × ο)} {u : M.State} (h : M.Later A tr s tr' t) (h' : M.Later A tr' t tr'' u) :
    M.Later A tr s tr'' u := by
  induction h' with
  | refl => exact h
  | snoc _ ha hs ih => exact .snoc ih ha hs

theorem Later.subset (later : M.Later A tr s tr' t) : tr ⊆ tr' := by
  induction later with
  | refl => exact fun _ he => he
  | snoc _ _ _ ih => exact fun _ he => List.mem_append_left _ (ih he)

/-- Forward simulation: when every step from related states is matched under the same label, every run of
    `M` is a run of `N` to a related state. -/
theorem Run.simulate {N : Machine ι ο} {R : M.State → N.State → Prop} (init : R M.init N.init)
    (step : ∀ {tr s i o t s'}, M.Run A tr s → N.Run A tr s' → R s s' → A tr i o → M.Step s i o t →
      ∃ t', N.Step s' i o t' ∧ R t t')
    (run : M.Run A tr s) : ∃ s', N.Run A tr s' ∧ R s s' := by
  induction run with
  | nil => exact ⟨N.init, .nil, init⟩
  | snoc run ha hs ih =>
    obtain ⟨s', run', hr⟩ := ih
    obtain ⟨t', hs', ht⟩ := step run run' hr ha hs
    exact ⟨t', .snoc run' ha hs', ht⟩

/-! ### Conditions on the state -/

/-- The machine whose inputs are taken only in states where `C` allows them. -/
def restrict (M : Machine ι ο) (C : M.State → ι → Prop) : Machine ι ο where
  State := M.State
  init := M.init
  Step s i o t := C s i ∧ M.Step s i o t

theorem Run.of_restrict {C : M.State → ι → Prop} {s : (M.restrict C).State} (run : (M.restrict C).Run A tr s) :
    M.Run A tr s := by
  induction run with
  | nil => exact .nil
  | snoc _ ha hs ih => exact .snoc ih ha hs.2

theorem Run.inv_restrict {C : M.State → ι → Prop} {P : List (ι × ο) → M.State → Prop} (init : P [] M.init)
    (step : ∀ {tr s i o t}, M.Run A tr s → P tr s → A tr i o → C s i → M.Step s i o t → P (tr ++ [(i, o)]) t)
    {s : (M.restrict C).State} (run : (M.restrict C).Run A tr s) : P tr s := by
  induction run with
  | nil => exact init
  | snoc run ha hs ih => exact step run.of_restrict ih ha hs.1 hs.2

/-! ### Two machines side by side -/

/-- Two machines that take the same inputs. -/
def both (M N : Machine ι ο) : Machine ι (ο × ο) where
  State := M.State × N.State
  init := (M.init, N.init)
  Step s i o t := M.Step s.1 i o.1 t.1 ∧ N.Step s.2 i o.2 t.2

def fsts (tr : List (ι × ο × ο)) : List (ι × ο) := tr.map fun e => (e.1, e.2.1)

def snds (tr : List (ι × ο × ο)) : List (ι × ο) := tr.map fun e => (e.1, e.2.2)

/-- What the environment promises, promised to both machines. -/
def Twice (A : List (ι × ο) → ι → ο → Prop) (tr : List (ι × ο × ο)) (i : ι) (o : ο × ο) : Prop :=
  A (fsts tr) i o.1 ∧ A (snds tr) i o.2

instance (A : List (ι × ο) → ι → ο → Prop) [∀ tr i o, Decidable (A tr i o)] (tr : List (ι × ο × ο))
    (i : ι) (o : ο × ο) :
    Decidable (Twice A tr i o) := inferInstanceAs (Decidable (_ ∧ _))

/-- Two machines that answer alike in related states, where `C` allows the input, answer alike in every run. -/
theorem Run.lockstep {N : Machine ι ο} {C : (M.both N).State → ι → Prop} {R : M.State → N.State → Prop}
    (init : R M.init N.init)
    (step : ∀ {tr s s' i o o' t t'}, M.Run A tr s → N.Run A tr s' → R s s' → C (s, s') i → A tr i o → A tr i o' →
      M.Step s i o t → N.Step s' i o' t' → o = o' ∧ R t t')
    {tr : List (ι × ο × ο)} {s : ((M.both N).restrict C).State} (run : ((M.both N).restrict C).Run (Twice A) tr s) :
    (∀ e ∈ tr, e.2.1 = e.2.2) ∧ M.Run A (fsts tr) s.1 ∧ N.Run A (snds tr) s.2 ∧ R s.1 s.2 := by
  induction run with
  | nil => exact ⟨by simp, .nil, .nil, init⟩
  | @snoc tr s t i o _ ha hs ih =>
    obtain ⟨same, left, right, related⟩ := ih
    have traces : snds tr = fsts tr := List.map_congr_left fun e he => by rw [same e he]
    obtain ⟨answer, related'⟩ := step left (traces ▸ right) related hs.1 ha.1 (traces ▸ ha.2) hs.2.1 hs.2.2
    refine ⟨fun e he => ?_, ?_, ?_, related'⟩
    · rcases List.mem_append.mp he with he | he
      · exact same e he
      · rw [List.mem_singleton.mp he]
        exact answer
    · rw [fsts, List.map_append]
      exact .snoc left ha.1 hs.2.1
    · rw [snds, List.map_append]
      exact .snoc right ha.2 hs.2.2

/-! ### Computed runs -/

/-- The trace and the state that a function computes from a list of inputs. -/
def play {σ : Type} (f : σ → ι → σ × ο) : σ → List ι → List (ι × ο) × σ
  | s, [] => ([], s)
  | s, i :: is => ((i, (f s i).2) :: (play f (f s i).1 is).1, (play f (f s i).1 is).2)

/-- The assumption on the environment and the condition on the state, checked input by input. -/
def Playable {σ : Type} (f : σ → ι → σ × ο) (A : List (ι × ο) → ι → ο → Prop) (C : σ → ι → Prop) :
    List (ι × ο) → σ → List ι → Prop
  | _, _, [] => True
  | tr, s, i :: is => A tr i (f s i).2 ∧ C s i ∧ Playable f A C (tr ++ [(i, (f s i).2)]) (f s i).1 is

instance decidablePlayable {σ : Type} (f : σ → ι → σ × ο) (A : List (ι × ο) → ι → ο → Prop) (C : σ → ι → Prop)
    [∀ tr i o, Decidable (A tr i o)] [∀ s i, Decidable (C s i)] : ∀ tr s is, Decidable (Playable f A C tr s is)
  | _, _, [] => inferInstanceAs (Decidable True)
  | tr, s, i :: is =>
    have := decidablePlayable f A C (tr ++ [(i, (f s i).2)]) (f s i).1 is
    inferInstanceAs (Decidable (A tr i (f s i).2 ∧ C s i ∧ Playable f A C (tr ++ [(i, (f s i).2)]) (f s i).1 is))

/-- Playing inputs with a function that chooses one outcome of each step continues a run. -/
theorem Run.play {C : M.State → ι → Prop} {f : M.State → ι → M.State × ο} (hf : ∀ s i, M.Step s i (f s i).2 (f s i).1) :
    ∀ {is : List ι} {tr : List (ι × ο)} {s : (M.restrict C).State}, (M.restrict C).Run A tr s → Playable f A C tr s is →
      (M.restrict C).Run A (tr ++ (Machine.play f s is).1) (Machine.play f s is).2
  | [], tr, s, run, _ => by simpa [Machine.play] using run
  | i :: is, tr, s, run, h => by
    have rest : (M.restrict C).Run A (tr ++ [(i, (f s i).2)] ++ (Machine.play f (f s i).1 is).1)
        (Machine.play f (f s i).1 is).2 := Run.play hf (.snoc run h.1 ⟨h.2.1, hf s i⟩) h.2.2
    simpa [Machine.play] using rest

/-- The trace and the state that a function computes from a list of inputs, as long as it has an outcome. -/
def attempt {σ : Type} (f : σ → ι → Option (σ × ο)) : σ → List ι → Option (List (ι × ο) × σ)
  | s, [] => some ([], s)
  | s, i :: is => (f s i).bind fun out => (attempt f out.1 is).map fun rest => ((i, out.2) :: rest.1, rest.2)

theorem map_attempt {σ : Type} {f : σ → ι → Option (σ × ο)} {is : List ι} {s t : σ}
    (h : attempt f s is = some (tr, t)) : tr.map Prod.fst = is := by
  induction is generalizing tr s with
  | nil =>
    cases h
    rfl
  | cons i is ih =>
    obtain ⟨out, -, h⟩ := Option.bind_eq_some_iff.mp h
    obtain ⟨rest, played, last⟩ := Option.map_eq_some_iff.mp h
    cases last
    rw [List.map_cons, ih played]

theorem Run.attempt {f : M.State → ι → Option (M.State × ο)} (hf : ∀ {s i t o}, f s i = some (t, o) → M.Step s i o t)
    {is : List ι} (allowed : ∀ i ∈ is, ∀ tr o, A tr i o) {s t : M.State} (run : M.Run A tr s)
    (h : Machine.attempt f s is = some (tr', t)) : M.Run A (tr ++ tr') t := by
  induction is generalizing tr tr' s with
  | nil =>
    cases h
    simpa using run
  | cons i is ih =>
    obtain ⟨out, next, h⟩ := Option.bind_eq_some_iff.mp h
    obtain ⟨rest, played, last⟩ := Option.map_eq_some_iff.mp h
    cases last
    have step := Run.snoc run (allowed i List.mem_cons_self tr out.2) (hf next)
    simpa using ih (fun j hj => allowed j (List.mem_cons_of_mem i hj)) step played

end Machine

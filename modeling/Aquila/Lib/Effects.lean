/-! Computations with a state that may fail, by what holds at their two ends. -/

namespace Effects
variable {ε σ α β : Type}

/-- From `s` the computation succeeds with `Q` or fails with `E`. -/
def Ends (x : EStateM ε σ α) (s : σ) (Q : α → σ → Prop) (E : σ → Prop) : Prop :=
  match x s with
  | .ok a s' => Q a s'
  | .error _ s' => E s'

section
variable {x : EStateM ε σ α} {f : α → EStateM ε σ β} {s : σ} {Q : α → σ → Prop} {E : σ → Prop}

theorem Ends.bind {R : β → σ → Prop} (h : Ends x s Q E) (next : ∀ a s', Q a s' → Ends (f a) s' R E) :
    Ends (x >>= f) s R E := by
  have step : (x >>= f) s = EStateM.bind x f s := rfl
  unfold Ends at h ⊢
  rw [step, EStateM.bind]
  cases run : x s with
  | ok a s' =>
    rw [run] at h
    exact next a s' h
  | error e s' =>
    rw [run] at h
    exact h

theorem Ends.mono {Q' : α → σ → Prop} {E' : σ → Prop} (h : Ends x s Q E) (ok : ∀ a s', Q a s' → Q' a s')
    (error : ∀ s', E s' → E' s') :
    Ends x s Q' E' := by
  unfold Ends at h ⊢
  cases run : x s with
  | ok a s' =>
    rw [run] at h
    exact ok a s' h
  | error e s' =>
    rw [run] at h
    exact error s' h

theorem Ends.pure {a : α} (h : Q a s) : Ends (Pure.pure a : EStateM ε σ α) s Q E := h

theorem Ends.throw {e : ε} (h : E s) : Ends (throw e : EStateM ε σ α) s Q E := h

theorem Ends.of_ok {a : α} {s' : σ} (h : Ends x s Q E) (run : x s = .ok a s') : Q a s' := by
  unfold Ends at h
  rwa [run] at h

theorem bind_of_ok {a : α} {s' : σ} (run : x s = .ok a s') : (x >>= f) s = f a s' := by
  have step : (x >>= f) s = EStateM.bind x f s := rfl
  rw [step, EStateM.bind, run]

end

end Effects

import Mathlib.Data.List.Basic

/-! Folds: what a fold of computations that can fail has seen, and lists that are filled up to a limit. -/

namespace Fold
variable {ε α β σ τ : Type}

theorem bind_ok {x : Except ε α} {f : α → Except ε β} {b : β} (h : x >>= f = .ok b) :
    ∃ a, x = .ok a ∧ f a = .ok b := by
  cases x with
  | error e => exact nomatch h
  | ok a => exact ⟨a, rfl, h⟩

/-- A relation between the state and what was seen that every step keeps, where each element shows `g` of itself. -/
theorem trace {P : List τ → σ → Prop} {f : σ → α → Except ε σ} {g : α → List τ}
    (step : ∀ {tr s a s'}, P tr s → f s a = .ok s' → P (tr ++ g a) s') {as : List α} :
    ∀ {tr : List τ} {s s' : σ}, P tr s → as.foldlM f s = .ok s' → P (tr ++ as.flatMap g) s' := by
  induction as with
  | nil =>
    intro tr s s' h ok
    obtain rfl := Except.ok.inj ok
    simpa using h
  | cons a as ih =>
    intro tr s s' h ok
    rw [List.foldlM_cons] at ok
    obtain ⟨next, first, rest⟩ := bind_ok ok
    simpa using ih (step h first) rest

theorem keep {P : σ → Prop} {f : σ → α → Except ε σ} (step : ∀ {s a s'}, P s → f s a = .ok s' → P s') {as : List α}
    {s s' : σ} (h : P s) (ok : as.foldlM f s = .ok s') : P s' :=
  @trace ε α σ Unit (fun _ => P) f (fun _ => []) step as [] s s' h ok

/-- A relation between the states of two folds that every pair of steps keeps. -/
theorem both {ε' : Type} {R : σ → τ → Prop} {f : σ → α → Except ε σ} {g : τ → α → Except ε' τ}
    (step : ∀ {s t a s' t'}, R s t → f s a = .ok s' → g t a = .ok t' → R s' t') {as : List α} :
    ∀ {s s' : σ} {t t' : τ}, R s t → as.foldlM f s = .ok s' → as.foldlM g t = .ok t' → R s' t' := by
  induction as with
  | nil =>
    intro s s' t t' h ok ok'
    obtain rfl := Except.ok.inj ok
    obtain rfl := Except.ok.inj ok'
    exact h
  | cons a as ih =>
    intro s s' t t' h ok ok'
    rw [List.foldlM_cons] at ok ok'
    obtain ⟨next, first, rest⟩ := bind_ok ok
    obtain ⟨next', first', rest'⟩ := bind_ok ok'
    exact ih (step h first first') rest rest'

/-- A part of the state that each element changes by a fold over what it stands for. -/
theorem view {view : σ → τ} {g : σ → α → σ} {f : τ → β → τ} {h : α → List β}
    (step : ∀ s a, view (g s a) = (h a).foldl f (view s)) :
    ∀ (as : List α) (s : σ), view (as.foldl g s) = (as.flatMap h).foldl f (view s)
  | [], _ => rfl
  | a :: as, s => by rw [List.foldl_cons, Fold.view step as, step, List.flatMap_cons, List.foldl_append]

/-- Elements that are appended while there is room are the first ones. -/
theorem capped {n : Nat} {f : List α → α → List α}
    (hf : ∀ dst a, f dst a = if dst.length ≥ n then dst else dst ++ [a]) :
    ∀ (as dst : List α), as.foldl f dst = dst ++ as.take (n - dst.length)
  | [], dst => by simp
  | a :: as, dst => by
    rw [List.foldl_cons, capped hf as, hf]
    split_ifs with full
    · have none : n - dst.length = 0 := by omega
      rw [none, List.take_zero, List.take_zero]
    · have room : n - dst.length = (n - (dst ++ [a]).length) + 1 := by
        rw [List.length_append, List.length_singleton]
        omega
      rw [room, List.take_succ_cons, List.append_assoc]
      rfl

end Fold

import Aquila.Lib.Lists
import Aquila.Theorems.Jobs.Tasks

/-! `settle` reaches a state in which no pending task has its dependencies done, and it makes a task ready
    only when they are. -/

namespace Aquila.Jobs
variable {ts : List Task} {t t' : Task}

/-- No pending task could start. -/
def Settled (ts : List Task) : Prop :=
  ∀ t ∈ ts, t.state = .pending → t.operator = false ∧ depsOK t (stateByPlan ts) = false

/-- Every task that may run has its dependencies done. -/
def Justified (ts : List Task) : Prop :=
  ∀ t ∈ ts, t.state = .ready ∨ t.state = .leased → depsOK t (stateByPlan ts) = true

def settleRound (ts : List Task) : List Task := ts.map (settleTask (stateByPlan ts))

theorem settleRounds_succ (n : Nat) (ts : List Task) :
    settleRounds (n + 1) ts =
      if (settleRound ts).map (·.state) = ts.map (·.state) then settleRound ts else settleRounds n (settleRound ts) :=
    rfl

theorem settleRound_kept (held : ∀ t ∈ ts, Held t) : List.Forall₂ Kept ts (settleRound ts) := by
  unfold settleRound
  rw [List.forall₂_map_right_iff, List.forall₂_same]
  exact fun t ht => settleTask_kept (held t ht)

theorem Kept.forall₂_held {ts' : List Task} (h : List.Forall₂ Kept ts ts') (held : ∀ t ∈ ts, Held t) :
    ∀ t ∈ ts', Held t := by
  intro t' ht'
  obtain ⟨t, ht, kept⟩ := Lists.forall₂_mem_right h ht'
  exact kept.held (held t ht)

theorem settleRounds_kept : ∀ (n : Nat) {ts : List Task}, (∀ t ∈ ts, Held t) → List.Forall₂ Kept ts (settleRounds n ts)
  | 0, ts, _ => List.forall₂_same.mpr fun t _ => .refl t
  | n + 1, ts, held => by
    have round := settleRound_kept held
    rw [settleRounds_succ]
    split_ifs
    · exact round
    · exact Lists.forall₂_trans round (settleRounds_kept n (Kept.forall₂_held round held)) fun _ _ _ => Kept.trans

theorem settle_kept (held : ∀ t ∈ ts, Held t) : List.Forall₂ Kept ts (settle ts) :=
  settleRounds_kept ts.length held

/-- What `settle` does to a task: it makes a pending task ready or skipped. -/
def Settling (t t' : Task) : Prop := t' = t ∨ t.state = .pending ∧ (t'.state = .ready ∨ t'.state = .skipped)

theorem Settling.trans {t'' : Task} (h : Settling t t') (h' : Settling t' t'') : Settling t t'' := by
  rcases h with rfl | ⟨pending, settled⟩
  · exact h'
  · rcases h' with rfl | ⟨pending', -⟩
    · exact .inr ⟨pending, settled⟩
    · rcases settled with h | h <;> rw [h] at pending' <;> cases pending'

theorem settleTask_settling (states : String → Option TaskState) (t : Task) : Settling t (settleTask states t) := by
  unfold settleTask
  split_ifs with skip ready
  · exact .inr ⟨skip.2, .inr rfl⟩
  · exact .inr ⟨ready.1, .inl rfl⟩
  · exact .inl rfl

theorem settleRounds_settling : ∀ (n : Nat) (ts : List Task), List.Forall₂ Settling ts (settleRounds n ts)
  | 0, ts => List.forall₂_same.mpr fun _ _ => .inl rfl
  | n + 1, ts => by
    have round : List.Forall₂ Settling ts (settleRound ts) := by
      unfold settleRound
      rw [List.forall₂_map_right_iff, List.forall₂_same]
      exact fun t _ => settleTask_settling _ t
    rw [settleRounds_succ]
    split_ifs
    · exact round
    · exact Lists.forall₂_trans round (settleRounds_settling n (settleRound ts)) fun _ _ _ => Settling.trans

theorem settle_settling (ts : List Task) : List.Forall₂ Settling ts (settle ts) := settleRounds_settling ts.length ts

theorem Settling.eq (h : Settling t t') (idle : t.state ≠ .pending) : t' = t := by
  rcases h with same | ⟨pending, -⟩
  · exact same
  · exact absurd pending idle

theorem Settling.failed (h : Settling t t') (failed : t'.state = .failed) : t.state = .failed := by
  rcases h with rfl | ⟨-, settled⟩
  · exact failed
  · rcases settled with h | h <;> rw [h] at failed <;> cases failed

/-! ### The fixed point -/

theorem settleTask_eq {states : String → Option TaskState} (h : (settleTask states t).state = t.state) :
    settleTask states t = t := by
  unfold settleTask at h ⊢
  split_ifs at h ⊢ with skip ready
  · rw [skip.2] at h; cases h
  · rw [ready.1] at h; cases h
  · rfl

theorem settleTask_eq_iff {states : String → Option TaskState} :
    settleTask states t = t ↔ (t.state = .pending → t.operator = false ∧ depsOK t states = false) := by
  unfold settleTask
  constructor
  · intro h pending
    split_ifs at h with skip ready
    · have := congrArg Task.state h; rw [pending] at this; cases this
    · have := congrArg Task.state h; rw [pending] at this; cases this
    · simp only [pending, and_true, true_and, Bool.not_eq_true] at skip ready
      exact ⟨skip, ready⟩
  · intro h
    rw [if_neg (fun c => by simp [(h c.2).1] at c), if_neg (fun c => by simp [(h c.1).2] at c)]

theorem settled_iff : Settled ts ↔ settleRound ts = ts := by
  constructor
  · intro h
    calc settleRound ts = ts.map id := List.map_congr_left fun t ht => settleTask_eq_iff.mpr (h t ht)
      _ = ts := List.map_id ts
  · intro h t ht
    refine settleTask_eq_iff.mp ?_
    have all : ts.map (settleTask (stateByPlan ts)) = ts.map id := h.trans (List.map_id ts).symm
    exact List.map_inj_left.mp all t ht

theorem settleRound_of_states (h : (settleRound ts).map (·.state) = ts.map (·.state)) :
    settleRound ts = ts := by
  unfold settleRound at h ⊢
  rw [List.map_map] at h
  calc ts.map (settleTask (stateByPlan ts)) = ts.map id :=
        List.map_congr_left fun t ht => settleTask_eq (List.map_inj_left.mp h t ht)
    _ = ts := List.map_id ts

theorem settle_of_settled (h : Settled ts) : settle ts = ts := by
  unfold settle
  cases hn : ts.length with
  | zero => rw [List.length_eq_zero_iff.mp hn]; rfl
  | succ n => rw [settleRounds_succ, settled_iff.mp h, if_pos rfl]

theorem countP_pending_lt (h : (settleRound ts).map (·.state) ≠ ts.map (·.state)) :
    (settleRound ts).countP (·.state = .pending) < ts.countP (·.state = .pending) := by
  have step : ∀ t, (settleTask (stateByPlan ts) t).state = .pending → settleTask (stateByPlan ts) t = t := by
    intro t pending
    unfold settleTask at pending ⊢
    split_ifs at pending ⊢
    rfl
  obtain ⟨t, ht, moved⟩ : ∃ t ∈ ts, (settleTask (stateByPlan ts) t).state ≠ t.state := by
    by_contra none_
    simp only [not_exists, not_and, not_not] at none_
    exact h (by rw [settleRound, List.map_map]; exact List.map_congr_left none_)
  have pending : t.state = .pending := by
    by_contra other
    exact moved (congrArg Task.state (settleTask_eq_iff.mpr fun p => absurd p other))
  unfold settleRound
  rw [List.countP_map]
  refine Lists.countP_lt_countP (fun u _ hu => ?_) ht (by simpa using pending) ?_
  · have pending' : (settleTask (stateByPlan ts) u).state = .pending := by simpa using hu
    simpa [step u pending'] using hu
  · simpa [pending] using moved

theorem settleRounds_settled : ∀ (n : Nat) {ts : List Task}, ts.countP (·.state = .pending) ≤ n →
    Settled (settleRounds n ts)
  | 0, ts, few => by
    intro t ht pending
    have none_ := List.countP_eq_zero.mp (Nat.le_zero.mp few) t ht
    exact absurd pending (by simpa using none_)
  | n + 1, ts, few => by
    rw [settleRounds_succ]
    split_ifs with same
    · have fixed := settleRound_of_states same
      rw [fixed]
      exact settled_iff.mpr fixed
    · have fewer := countP_pending_lt same
      exact settleRounds_settled n (by omega)

/-- As many rounds as there are tasks are enough. -/
theorem settle_settled (ts : List Task) : Settled (settle ts) :=
  settleRounds_settled ts.length List.countP_le_length

/-! ### Tasks that become ready -/

/-- A task that waited becomes ready, and nothing else of it changes. -/
def Readied (t t' : Task) : Prop := t' = t ∨ t.state = .pending ∧ t' = { t with state := .ready }

theorem Readied.trans {t'' : Task} (h : Readied t t') (h' : Readied t' t'') : Readied t t'' := by
  rcases h with rfl | ⟨pending, rfl⟩
  · exact h'
  · rcases h' with rfl | ⟨ready, -⟩
    · exact .inr ⟨pending, rfl⟩
    · cases ready

theorem settleRound_readied (operators : ∀ t ∈ ts, t.operator = true → t.state ≠ .pending) :
    List.Forall₂ Readied ts (settleRound ts) := by
  unfold settleRound
  rw [List.forall₂_map_right_iff, List.forall₂_same]
  intro t ht
  unfold settleTask
  split_ifs with skipped ready
  · exact absurd skipped.2 (operators t ht skipped.1)
  · exact .inr ⟨ready.1, rfl⟩
  · exact .inl rfl

theorem settleRounds_readied : ∀ (n : Nat) {ts : List Task}, (∀ t ∈ ts, t.operator = true → t.state ≠ .pending) →
    List.Forall₂ Readied ts (settleRounds n ts)
  | 0, _, _ => List.forall₂_same.mpr fun _ _ => .inl rfl
  | n + 1, ts, operators => by
    have round := settleRound_readied operators
    rw [settleRounds_succ]
    split_ifs
    · exact round
    · refine Lists.forall₂_trans round (settleRounds_readied n fun t' ht' => ?_) fun _ _ _ => Readied.trans
      obtain ⟨t, ht, rfl | ⟨-, rfl⟩⟩ := Lists.forall₂_mem_right round ht'
      · exact operators _ ht
      · simp

theorem settle_readied (operators : ∀ t ∈ ts, t.operator = true → t.state ≠ .pending) :
    List.Forall₂ Readied ts (settle ts) := settleRounds_readied ts.length operators

/-! ### Readiness is justified -/

theorem settleRound_justified (held : ∀ t ∈ ts, Held t) (h : Justified ts) :
    Justified (settleRound ts) := by
  have grows : List.Forall₂ Grows ts (settleRound ts) := (settleRound_kept held).imp fun _ _ => Kept.grows
  intro t' ht' live
  obtain ⟨t, ht, rfl⟩ := List.mem_map.mp ht'
  have deps : (settleTask (stateByPlan ts) t).dependsOn = t.dependsOn := by
    unfold settleTask
    split_ifs <;> rfl
  refine depsOK_mono grows deps ?_
  unfold settleTask at live
  split_ifs at live with skip ready
  · rcases live with live | live <;> cases live
  · exact ready.2
  · exact h t ht live

theorem settleRounds_justified : ∀ (n : Nat) {ts : List Task}, (∀ t ∈ ts, Held t) → Justified ts →
    Justified (settleRounds n ts)
  | 0, _, _, h => h
  | n + 1, ts, held, h => by
    have round := settleRound_justified held h
    rw [settleRounds_succ]
    split_ifs
    · exact round
    · exact settleRounds_justified n (Kept.forall₂_held (settleRound_kept held) held) round

/-- `settle` makes a task ready only when its dependencies are done. -/
theorem settle_justified (held : ∀ t ∈ ts, Held t) (h : Justified ts) : Justified (settle ts) :=
  settleRounds_justified ts.length held h

end Aquila.Jobs

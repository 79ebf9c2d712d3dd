import Mathlib.Data.Finset.Basic
import Mathlib.Logic.Relation

/-! One pass over the edges of a graph, which marks both ends of an edge when one of them is marked. What is marked
    depends on the order of the edges. -/

namespace Sweep
variable {α : Type} [DecidableEq α]

def step (seed : Finset α) (e : α × α) : Finset α :=
  let seed := if e.1 ∈ seed then insert e.2 seed else seed
  if e.2 ∈ seed then insert e.1 seed else seed

def sweep (seed : Finset α) (edges : List (α × α)) : Finset α := edges.foldl step seed

/-- One of the ends of the edge is marked. -/
def Touches (seed : Finset α) (e : α × α) : Prop := e.1 ∈ seed ∨ e.2 ∈ seed

instance (seed : Finset α) (e : α × α) : Decidable (Touches seed e) := inferInstanceAs (Decidable (_ ∨ _))

def Adjacent (edges : List (α × α)) (a b : α) : Prop := (a, b) ∈ edges ∨ (b, a) ∈ edges

/-- Marked at first, or next to that. -/
def Near (seed : Finset α) (edges : List (α × α)) (x : α) : Prop := x ∈ seed ∨ ∃ s ∈ seed, Adjacent edges s x

def Connected (seed : Finset α) (edges : List (α × α)) (x : α) : Prop :=
  ∃ s ∈ seed, Relation.ReflTransGen (Adjacent edges) s x

variable {seed : Finset α} {edges : List (α × α)} {e : α × α} {x : α}

theorem mem_step : x ∈ step seed e ↔ x ∈ seed ∨ (Touches seed e ∧ (x = e.1 ∨ x = e.2)) := by
  unfold step Touches
  grind

theorem subset_step : seed ⊆ step seed e := fun _ hx => mem_step.mpr (.inl hx)

theorem step_of_not_touches (h : ¬Touches seed e) : step seed e = seed := by
  ext x
  simp [mem_step, h]

theorem subset_sweep : seed ⊆ sweep seed edges := by
  induction edges generalizing seed with
  | nil => exact fun _ hx => hx
  | cons e edges ih => exact subset_step.trans ih

theorem mem_sweep_of_touches (he : e ∈ edges) (touches : Touches seed e) : e.1 ∈ sweep seed edges ∧
    e.2 ∈ sweep seed edges := by
  induction edges generalizing seed with
  | nil => cases he
  | cons f edges ih =>
    rcases List.mem_cons.mp he with rfl | he
    · have rest := @subset_sweep α _ (step seed e) edges
      exact ⟨rest (mem_step.mpr (.inr ⟨touches, .inl rfl⟩)), rest (mem_step.mpr (.inr ⟨touches, .inr rfl⟩))⟩
    · exact ih he (touches.imp (subset_step ·) (subset_step ·))

theorem mem_sweep_of_near (h : Near seed edges x) : x ∈ sweep seed edges := by
  rcases h with marked | ⟨s, hs, edge | edge⟩
  · exact subset_sweep marked
  · exact (mem_sweep_of_touches edge (.inl hs)).2
  · exact (mem_sweep_of_touches edge (.inr hs)).1

theorem sweep_subset {P : α → Prop} (start : ∀ x ∈ seed, P x) (closed : ∀ e ∈ edges, P e.1 ∨ P e.2 → P e.1 ∧ P e.2) :
    ∀ x ∈ sweep seed edges, P x := by
  induction edges generalizing seed with
  | nil => exact start
  | cons e edges ih =>
    refine ih (fun x hx => ?_) fun f hf => closed f (List.mem_cons_of_mem e hf)
    rcases mem_step.mp hx with marked | ⟨touches, rfl | rfl⟩
    · exact start x marked
    · exact (closed e List.mem_cons_self (touches.imp (start _) (start _))).1
    · exact (closed e List.mem_cons_self (touches.imp (start _) (start _))).2

theorem connected_of_mem_sweep (h : x ∈ sweep seed edges) : Connected seed edges x := by
  refine sweep_subset (P := Connected seed edges) (fun x hx => ⟨x, hx, .refl⟩) (fun e he ends => ?_) x h
  rcases ends with ⟨s, hs, path⟩ | ⟨s, hs, path⟩
  · exact ⟨⟨s, hs, path⟩, s, hs, path.tail (.inl he)⟩
  · exact ⟨⟨s, hs, path.tail (.inr he)⟩, s, hs, path⟩

/-- With the edges that touch the first marks at the end, only the neighbours are marked. -/
theorem exists_perm_near (seed : Finset α) (edges : List (α × α)) : ∃ es, es.Perm edges ∧
    ∀ x ∈ sweep seed es, Near seed edges x := by
  refine ⟨edges.filter (fun e => !decide (Touches seed e)) ++ edges.filter (fun e => decide (Touches seed e)), ?_, ?_⟩
  · exact List.perm_append_comm.trans (List.filter_append_perm _ _)
  · have idle : sweep seed (edges.filter fun e => !decide (Touches seed e)) = seed := by
      have apart : ∀ e ∈ edges.filter fun e => !decide (Touches seed e), ¬Touches seed e := by simp
      generalize edges.filter (fun e => !decide (Touches seed e)) = far at apart ⊢
      induction far with
      | nil => rfl
      | cons e far ih =>
        rw [sweep, List.foldl_cons, step_of_not_touches (apart e List.mem_cons_self)]
        exact ih fun f hf => apart f (List.mem_cons_of_mem e hf)
    rw [sweep, List.foldl_append]
    change ∀ x ∈ sweep (sweep seed _) _, _
    rw [idle]
    refine sweep_subset (fun x hx => .inl hx) fun e he _ => ?_
    obtain ⟨he, touches⟩ := List.mem_filter.mp he
    rcases of_decide_eq_true touches with marked | marked
    · exact ⟨.inl marked, .inr ⟨_, marked, .inl he⟩⟩
    · exact ⟨.inr ⟨_, marked, .inr he⟩, .inl marked⟩

/-- When each edge is taken as soon as it touches a mark, all that is connected is marked. -/
theorem exists_perm_connected (seed : Finset α) (edges : List (α × α)) :
    ∃ es, es.Perm edges ∧ ∀ x, Connected seed edges x → x ∈ sweep seed es := by
  -- by induction on the number of edges that are left
  induction h : edges.length generalizing seed edges with
  | zero =>
    obtain rfl := List.length_eq_zero_iff.mp h
    refine ⟨[], .refl _, ?_⟩
    rintro x ⟨s, hs, path⟩
    cases path with
    | refl => exact hs
    | tail _ edge => simp [Adjacent] at edge
  | succ n ih =>
    by_cases touched : ∃ e ∈ edges, Touches seed e
    · obtain ⟨e, he, touches⟩ := touched
      obtain ⟨es, perm, all⟩ := ih (step seed e) (edges.erase e) (by rw [List.length_erase_of_mem he, h]; rfl)
      refine ⟨e :: es, (perm.cons e).trans (List.perm_cons_erase he).symm, ?_⟩
      rintro x ⟨s, hs, path⟩
      refine all x ?_
      induction path with
      | refl => exact ⟨s, subset_step hs, .refl⟩
      | @tail y z _ edge reached =>
        by_cases same : (y, z) = e ∨ (z, y) = e
        · refine ⟨z, mem_step.mpr (.inr ⟨touches, ?_⟩), .refl⟩
          rcases same with rfl | rfl
          · exact .inr rfl
          · exact .inl rfl
        · obtain ⟨s', hs', path'⟩ := reached
          rw [not_or] at same
          exact ⟨s', hs', path'.tail (edge.imp (List.mem_erase_of_ne same.1).mpr (List.mem_erase_of_ne same.2).mpr)⟩
    · refine ⟨edges, .refl _, ?_⟩
      rintro x ⟨s, hs, path⟩
      refine subset_sweep ?_
      induction path with
      | refl => exact hs
      | tail _ edge marked =>
        exact absurd (edge.elim (fun edge => ⟨_, edge, .inl marked⟩) fun edge => ⟨_, edge, .inr marked⟩) touched

end Sweep

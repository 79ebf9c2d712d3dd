import Mathlib.Data.List.Nodup
import Mathlib.Data.List.Perm.Basic

/-! Values of documents, in which an object is a map from its keys to values. -/

/-- A value with keys and strings in `κ` and numbers in `ν`. -/
inductive Value (κ ν : Type) where
  | null
  | bool (b : Bool)
  | num (x : ν)
  | str (s : κ)
  | arr (xs : List (Value κ ν))
  | obj (members : κ → Option (Value κ ν))

namespace Value
variable {κ β : Type} [DecidableEq κ]

theorem lookup_eq_some_iff {l : List (κ × β)} (nodup : (l.map (·.1)).Nodup) {k : κ} {b : β} : l.lookup k = some b ↔
    (k, b) ∈ l := by
  induction l with
  | nil => simp
  | cons p l ih =>
    obtain ⟨new, nodup⟩ := List.nodup_cons.mp nodup
    rw [List.lookup_cons, List.mem_cons, Prod.ext_iff]
    by_cases same : k = p.1
    · subst same
      have gone : (p.1, b) ∉ l := fun mem => new (List.mem_map.mpr ⟨_, mem, rfl⟩)
      simp [eq_comm, gone]
    · rw [beq_false_of_ne same]
      simp [same, ih nodup]

theorem lookup_eq_none_iff {l : List (κ × β)} {k : κ} : l.lookup k = none ↔ k ∉ l.map (·.1) := by
  induction l with
  | nil => simp
  | cons p l ih =>
    rw [List.lookup_cons, List.map_cons, List.mem_cons]
    by_cases same : k = p.1
    · simp [same]
    · rw [beq_false_of_ne same]
      simpa [same] using ih

theorem forall_lookup_eq_iff {γ : Type} (f : β → γ) {l l' : List (κ × β)} (nodup : (l.map (·.1)).Nodup)
    (nodup' : (l'.map (·.1)).Nodup) :
    (∀ k, (l.lookup k).map f = (l'.lookup k).map f) ↔ l.length = l'.length ∧
    ∀ p ∈ l, (l'.lookup p.1).map f = some (f p.2) := by
  constructor
  · intro same
    have keys : ∀ k, k ∈ l.map (·.1) ↔ k ∈ l'.map (·.1) := by
      intro k
      have both := congrArg Option.isNone (same k)
      rw [Option.isNone_map, Option.isNone_map, Bool.eq_iff_iff, Option.isNone_iff_eq_none, Option.isNone_iff_eq_none,
        lookup_eq_none_iff, lookup_eq_none_iff] at both
      exact not_iff_not.mp both
    refine ⟨?_, fun p hp => ?_⟩
    · have perm := (List.perm_ext_iff_of_nodup nodup nodup').mpr keys
      simpa using perm.length_eq
    · rw [← same, (lookup_eq_some_iff nodup).mpr hp]
      rfl
  · rintro ⟨len, held⟩ k
    have inside : l.map (·.1) ⊆ l'.map (·.1) := by
      intro k hk
      obtain ⟨p, hp, rfl⟩ := List.mem_map.mp hk
      by_contra missing
      have := held p hp
      rw [lookup_eq_none_iff.mpr missing] at this
      cases this
    cases found : l.lookup k with
    | some b => exact (held (k, b) ((lookup_eq_some_iff nodup).mp found)).symm
    | none =>
      have perm := (List.subperm_of_subset nodup inside).perm_of_length_le (by simp [len])
      have missing := lookup_eq_none_iff.mp found
      rw [perm.mem_iff, ← lookup_eq_none_iff] at missing
      rw [missing]

end Value

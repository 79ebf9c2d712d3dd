import Mathlib.Data.List.Infix

/-! Regular expressions as a backtracking matcher reads them; the leftmost matches are taken out of a text one after
    the other. -/

inductive Regexp (α : Type) where
  | char (p : α → Bool)
  | many (p : α → Bool)
  | seq (a b : Regexp α)
  | alt (a b : Regexp α)
  | opt (a : Regexp α)

namespace Regexp
variable {α : Type}

/-- The texts that an expression matches. -/
def Matches : Regexp α → List α → Prop
  | char p, w => ∃ c, p c = true ∧ w = [c]
  | many p, w => ∀ c ∈ w, p c = true
  | seq a b, w => ∃ u v, a.Matches u ∧ b.Matches v ∧ w = u ++ v
  | alt a b, w => a.Matches w ∨ b.Matches w
  | opt a, w => a.Matches w ∨ w = []

def manyRests (p : α → Bool) : List α → List (List α)
  | [] => [[]]
  | c :: s => (if p c then manyRests p s else []) ++ [c :: s]

/-- What is left of a text after each match at its start, the preferred one first. -/
def rests : Regexp α → List α → List (List α)
  | char _, [] => []
  | char p, c :: s => if p c then [s] else []
  | many p, s => manyRests p s
  | seq a b, s => (a.rests s).flatMap b.rests
  | alt a b, s => a.rests s ++ b.rests s
  | opt a, s => a.rests s ++ [s]

theorem mem_manyRests {p : α → Bool} {s rest : List α} :
    rest ∈ manyRests p s ↔ ∃ w, (∀ c ∈ w, p c = true) ∧ s = w ++ rest := by
  induction s with
  | nil => simp [manyRests]
  | cons c s ih =>
    rw [manyRests, List.mem_append, List.mem_singleton]
    constructor
    · rintro (h | rfl)
      · split_ifs at h with pc
        · obtain ⟨w, all, rfl⟩ := ih.mp h
          exact ⟨c :: w, List.forall_mem_cons.mpr ⟨pc, all⟩, rfl⟩
        · cases h
      · exact ⟨[], by simp, rfl⟩
    · rintro ⟨w, all, eq⟩
      cases w with
      | nil => exact .inr eq.symm
      | cons c' w =>
        obtain ⟨rfl, rfl⟩ := List.cons.inj eq
        obtain ⟨pc, all⟩ := List.forall_mem_cons.mp all
        rw [if_pos pc]
        exact .inl (ih.mpr ⟨w, all, rfl⟩)

theorem mem_rests {r : Regexp α} {s rest : List α} : rest ∈ r.rests s ↔ ∃ w, r.Matches w ∧ s = w ++ rest := by
  induction r generalizing s rest with
  | char p =>
    cases s with
    | nil => simp [rests, Matches]
    | cons c s =>
      by_cases pc : p c = true
      · simp only [rests, pc, if_true, List.mem_singleton, Matches]
        constructor
        · rintro rfl
          exact ⟨[c], ⟨c, pc, rfl⟩, rfl⟩
        · rintro ⟨w, ⟨c', -, rfl⟩, eq⟩
          exact (List.cons.inj eq).2.symm
      · simp only [rests, pc, Matches]
        refine iff_of_false (by simp) ?_
        rintro ⟨w, ⟨c', pc', rfl⟩, eq⟩
        exact pc ((List.cons.inj eq).1 ▸ pc')
  | many p => exact mem_manyRests
  | seq a b iha ihb =>
    simp only [rests, List.mem_flatMap, iha, ihb, Matches]
    constructor
    · rintro ⟨_, ⟨u, hu, rfl⟩, v, hv, rfl⟩
      exact ⟨u ++ v, ⟨u, v, hu, hv, rfl⟩, (List.append_assoc ..).symm⟩
    · rintro ⟨_, ⟨u, v, hu, hv, rfl⟩, rfl⟩
      exact ⟨v ++ rest, ⟨u, hu, List.append_assoc ..⟩, v, hv, rfl⟩
  | alt a b iha ihb =>
    simp only [rests, List.mem_append, iha, ihb, Matches]
    constructor
    · rintro (⟨w, h, rfl⟩ | ⟨w, h, rfl⟩)
      · exact ⟨w, .inl h, rfl⟩
      · exact ⟨w, .inr h, rfl⟩
    · rintro ⟨w, h | h, rfl⟩
      · exact .inl ⟨w, h, rfl⟩
      · exact .inr ⟨w, h, rfl⟩
  | opt a iha =>
    simp only [rests, List.mem_append, List.mem_singleton, iha, Matches]
    constructor
    · rintro (⟨w, h, rfl⟩ | rfl)
      · exact ⟨w, .inl h, rfl⟩
      · exact ⟨[], .inr rfl, rfl⟩
    · rintro ⟨w, h | rfl, rfl⟩
      · exact .inl ⟨w, h, rfl⟩
      · exact .inr rfl

/-- The length of the preferred match at the start of a text. -/
def matchLen (r : Regexp α) (s : List α) : Option Nat := (r.rests s).head?.map fun rest => s.length - rest.length

theorem matches_of_matchLen {r : Regexp α} {s : List α} {n : Nat} (h : r.matchLen s = some n) : r.Matches (s.take n) ∧
    n ≤ s.length := by
  obtain ⟨rest, head, rfl⟩ := Option.map_eq_some_iff.mp h
  obtain ⟨w, hw, rfl⟩ := mem_rests.mp (List.mem_of_head? head)
  have len : (w ++ rest).length - rest.length = w.length := by simp
  rw [len, List.take_left]
  exact ⟨hw, by simp⟩

/-! ### Taking matches out -/

/-- What is left when the first `skip` characters and then the leftmost matches are taken out. -/
def removeFrom (r : Regexp α) : (skip : Nat) → List α → List α
  | _, [] => []
  | skip + 1, _ :: s => removeFrom r skip s
  | 0, c :: s =>
    match r.matchLen (c :: s) with
    | some (n + 1) => removeFrom r n s
    | _ => c :: removeFrom r 0 s

def removeAll (r : Regexp α) (s : List α) : List α := removeFrom r 0 s

theorem removeFrom_eq (r : Regexp α) (skip : Nat) (s : List α) : removeFrom r skip s = removeAll r (s.drop skip) := by
  induction s generalizing skip with
  | nil => cases skip <;> rfl
  | cons c s ih =>
    cases skip with
    | zero => rfl
    | succ skip => rw [removeFrom, ih, List.drop_succ_cons]

/-- A text whose unwanted characters and matches are passed over, up to some place: `ks` is what was seen there and
    `rest` what comes after it. -/
inductive Reads (r : Regexp α) (keep : α → Bool) : (s ks rest : List α) → Prop
  | here {s : List α} : Reads r keep s [] s
  | pass {s ks rest : List α} {n : Nat} : r.matchLen s = some (n + 1) → Reads r keep (s.drop (n + 1)) ks rest →
    Reads r keep s ks rest
  | drop {c : α} {s ks rest : List α} : (∀ n, r.matchLen (c :: s) ≠ some (n + 1)) → keep c = false →
    Reads r keep s ks rest →
      Reads r keep (c :: s) ks rest
  | keep {c : α} {s ks rest : List α} : (∀ n, r.matchLen (c :: s) ≠ some (n + 1)) → keep c = true →
    Reads r keep s ks rest →
      Reads r keep (c :: s) (c :: ks) rest

theorem removeAll_of_match {r : Regexp α} {s : List α} {n : Nat} (h : r.matchLen s = some (n + 1)) :
    removeAll r s = removeAll r (s.drop (n + 1)) := by
  cases s with
  | nil =>
    have := (matches_of_matchLen h).2
    simp at this
  | cons c s =>
    rw [removeAll, removeFrom, h]
    exact removeFrom_eq r n s

theorem removeAll_of_no_match {r : Regexp α} {c : α} {s : List α} (h : ∀ n, r.matchLen (c :: s) ≠ some (n + 1)) :
    removeAll r (c :: s) = c :: removeAll r s := by
  rw [removeAll, removeFrom]
  split
  · next n found => exact absurd found (h n)
  · rfl

/-- What is left of a text starts with `ks` exactly if `ks` is read from it. -/
theorem prefix_filter_removeAll {r : Regexp α} {keep : α → Bool} {s ks : List α} :
    ks <+: (removeAll r s).filter keep ↔ ∃ rest, Reads r keep s ks rest := by
  constructor
  · induction h : s.length using Nat.strongRecOn generalizing s ks with
    | ind len ih =>
      subst h
      intro pre
      by_cases found : ∃ n, r.matchLen s = some (n + 1)
      · obtain ⟨n, found⟩ := found
        rw [removeAll_of_match found] at pre
        have le := (matches_of_matchLen found).2
        obtain ⟨rest, reads⟩ := ih _ (by rw [List.length_drop]; omega) rfl pre
        exact ⟨rest, .pass found reads⟩
      · cases s with
        | nil =>
          obtain rfl := List.prefix_nil.mp pre
          exact ⟨[], .here⟩
        | cons c s =>
          have none : ∀ n, r.matchLen (c :: s) ≠ some (n + 1) := fun n h => found ⟨n, h⟩
          rw [removeAll_of_no_match none] at pre
          by_cases kept : keep c = true
          · rw [List.filter_cons_of_pos kept] at pre
            cases ks with
            | nil => exact ⟨_, .here⟩
            | cons k ks =>
              obtain ⟨rfl, tail⟩ := List.cons_prefix_cons.mp pre
              obtain ⟨rest, reads⟩ := ih _ (by simp) rfl tail
              exact ⟨rest, .keep none kept reads⟩
          · rw [List.filter_cons_of_neg kept] at pre
            obtain ⟨rest, reads⟩ := ih _ (by simp) rfl pre
            exact ⟨rest, .drop none (Bool.eq_false_iff.mpr kept) reads⟩
  · rintro ⟨rest, reads⟩
    induction reads with
    | here => exact List.nil_prefix
    | pass found _ ih => rwa [removeAll_of_match found]
    | drop none dropped _ ih => rwa [removeAll_of_no_match none, List.filter_cons_of_neg (by simp [dropped])]
    | keep none kept _ ih =>
      rw [removeAll_of_no_match none, List.filter_cons_of_pos kept]
      exact List.cons_prefix_cons.mpr ⟨rfl, ih⟩

end Regexp

import Mathlib.Data.List.MinMax
import Mathlib.Data.Prod.Lex
import Aquila.Lib.Lists

/-! Lists in groups, which are ranked by their latest times. The groups one after the other, cut somewhere, are
    determined by their elements. -/

namespace Groups

/-- What the elements of a list are grouped by, and what they are sorted by in their groups. -/
structure Keys (α κ τ ι : Type) where
  group : α → κ
  time : α → τ
  id : α → ι

namespace Keys
variable {α κ τ ι : Type} {K : Keys α κ τ ι} {l l' : List α} {a : α}

variable (K) in
/-- No two elements of a group have one id. -/
def Distinct (l : List α) : Prop := (l.map fun a => (K.group a, K.id a)).Nodup

theorem Distinct.perm (distinct : K.Distinct l) (perm : l.Perm l') : K.Distinct l' := (perm.map _).nodup_iff.mp distinct

theorem Distinct.nodup (distinct : K.Distinct l) : l.Nodup := List.Nodup.of_map _ distinct

theorem Distinct.eq (distinct : K.Distinct l) {b : α} (ha : a ∈ l) (hb : b ∈ l) (group : K.group a = K.group b)
    (id : K.id a = K.id b) :
    a = b :=
  List.inj_on_of_nodup_map distinct ha hb (Prod.ext group id)

/-! ### The groups -/

variable [LinearOrder κ] {k : κ} {ks : List κ}

variable (K) in
def members (l : List α) (k : κ) : List α := l.filter (K.group · = k)

theorem mem_members : a ∈ K.members l k ↔ a ∈ l ∧ K.group a = k := by simp [members]

theorem members_perm (perm : l.Perm l') (k : κ) : (K.members l k).Perm (K.members l' k) := perm.filter _

variable [LinearOrder τ]

variable (K) in
def latest (l : List α) (k : κ) : WithBot τ := ((K.members l k).map K.time).maximum

variable (K) in
/-- The latest group comes first, and of two groups that are as late the one with the larger key. -/
def rank (l : List α) (k : κ) : (WithBot τ)ᵒᵈ ×ₗ κᵒᵈ := toLex (.toDual (K.latest l k), .toDual k)

variable (K) in
/-- The groups of which `p` holds, in order. -/
def ranking (p : List α → Bool) (l : List α) : List κ :=
  ((l.map K.group).dedup.filter fun k => p (K.members l k)).insertionSort (K.rank l · ≤ K.rank l ·)

variable {p : List α → Bool}

theorem rank_injective : Function.Injective (K.rank l) := fun _ _ h => (Prod.mk.inj (toLex.injective h)).2

theorem rank_lt_iff {k' : κ} : K.rank l k < K.rank l k' ↔ K.latest l k' < K.latest l k ∨
    K.latest l k = K.latest l k' ∧ k' < k := by
  rw [rank, rank, Prod.Lex.toLex_lt_toLex]
  rfl

theorem rank_le_iff {k' : κ} : K.rank l k ≤ K.rank l k' ↔ K.latest l k' < K.latest l k ∨
    K.latest l k = K.latest l k' ∧ k' ≤ k := by
  rw [rank, rank, Prod.Lex.toLex_le_toLex]
  rfl

theorem rank_perm (perm : l.Perm l') : K.rank l = K.rank l' := by
  funext k
  rw [rank, rank, latest, latest, ((members_perm perm k).map K.time).maximum_eq]

theorem mem_ranking : k ∈ K.ranking p l ↔ k ∈ l.map K.group ∧ p (K.members l k) = true := by
  rw [ranking, List.mem_insertionSort, List.mem_filter, List.mem_dedup]

theorem pairwise_insertionSort_rank (nodup : ks.Nodup) :
    (ks.insertionSort (K.rank l · ≤ K.rank l ·)).Pairwise (K.rank l · < K.rank l ·) := by
  have total : Std.Total (K.rank l · ≤ K.rank l ·) := ⟨fun a b => le_total _ _⟩
  have trans : IsTrans κ (K.rank l · ≤ K.rank l ·) := ⟨fun a b c => le_trans⟩
  have sorted := List.pairwise_insertionSort (K.rank l · ≤ K.rank l ·) ks
  have nodup := (List.perm_insertionSort (K.rank l · ≤ K.rank l ·) ks).nodup_iff.mpr nodup
  exact (sorted.and nodup).imp fun h => lt_of_le_of_ne h.1 fun same => h.2 (rank_injective same)

theorem pairwise_ranking : (K.ranking p l).Pairwise (K.rank l · < K.rank l ·) :=
  pairwise_insertionSort_rank ((List.nodup_dedup _).filter _)

/-- The order of the groups is determined. -/
theorem eq_ranking (order : ks.Pairwise (K.rank l · < K.rank l ·))
    (mem : ∀ k, k ∈ ks ↔ k ∈ l.map K.group ∧ p (K.members l k) = true) :
    ks = K.ranking p l := by
  have irrefl : Std.Irrefl (K.rank l · < K.rank l ·) := ⟨fun a => lt_irrefl _⟩
  have antisymm : Std.Antisymm (K.rank l · < K.rank l ·) := ⟨fun a b lt gt => absurd gt (lt_asymm lt)⟩
  exact order.eq_of_mem_iff pairwise_ranking fun k => (mem k).trans mem_ranking.symm

theorem ranking_perm (perm : l.Perm l') (respects : ∀ {m m' : List α}, m.Perm m' → p m = p m') :
    K.ranking p l = K.ranking p l' := by
  have order : (K.ranking p l).Pairwise (K.rank l' · < K.rank l' ·) := by
    rw [← rank_perm perm]
    exact pairwise_ranking
  refine eq_ranking order fun k => ?_
  rw [mem_ranking, (perm.map K.group).mem_iff, respects (members_perm perm k)]

/-! ### The groups one after the other -/

variable [LinearOrder ι]

variable (K) in
def age (a : α) : τ ×ₗ ι := toLex (K.time a, K.id a)

variable (K) in
def sorted (l : List α) (k : κ) : List α := (K.members l k).insertionSort (K.age · ≤ K.age ·)

theorem mem_sorted : a ∈ K.sorted l k ↔ a ∈ l ∧ K.group a = k := by
  rw [sorted, List.mem_insertionSort, mem_members]

theorem pairwise_sorted (distinct : K.Distinct l) : (K.sorted l k).Pairwise (K.age · < K.age ·) := by
  have total : Std.Total (K.age · ≤ K.age ·) := ⟨fun a b => le_total _ _⟩
  have trans : IsTrans α (K.age · ≤ K.age ·) := ⟨fun a b c => le_trans⟩
  have sorted : (K.sorted l k).Pairwise (K.age · ≤ K.age ·) := List.pairwise_insertionSort _ _
  have nodup : (K.sorted l k).Nodup := (List.perm_insertionSort _ _).nodup_iff.mpr (distinct.nodup.filter _)
  refine (sorted.and nodup).imp_of_mem fun {a b} ha hb h => lt_of_le_of_ne h.1 fun same => h.2 ?_
  rw [mem_sorted] at ha hb
  exact distinct.eq ha.1 hb.1 (ha.2.trans hb.2.symm) (Prod.mk.inj (toLex.injective same)).2

theorem eq_sorted (distinct : K.Distinct l) {m : List α} (order : m.Pairwise (K.age · < K.age ·))
    (mem : ∀ a, a ∈ m ↔ a ∈ l ∧ K.group a = k) : m = K.sorted l k := by
  have irrefl : Std.Irrefl (K.age · < K.age ·) := ⟨fun a => lt_irrefl _⟩
  have antisymm : Std.Antisymm (K.age · < K.age ·) := ⟨fun a b lt gt => absurd gt (lt_asymm lt)⟩
  exact order.eq_of_mem_iff (pairwise_sorted distinct) fun a => (mem a).trans mem_sorted.symm

theorem sorted_perm (distinct : K.Distinct l) (perm : l.Perm l') : K.sorted l k = K.sorted l' k := by
  refine eq_sorted (distinct.perm perm) (pairwise_sorted distinct) fun a => ?_
  rw [mem_sorted, perm.mem_iff]

end Keys

end Groups

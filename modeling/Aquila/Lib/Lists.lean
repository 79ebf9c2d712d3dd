import Mathlib.Algebra.Ring.Nat
import Mathlib.Data.List.Forall2
import Mathlib.Data.List.Count
import Mathlib.Data.List.Sort
import Mathlib.Data.Set.Card
import Mathlib.Data.Set.Finite.List

/-! Lists compared position by position, counted, cut and sorted, and ordered by an acyclic relation. -/

namespace Lists
variable {α β : Type}

theorem forall₂_trans {R S T : α → α → Prop} {l l' l'' : List α} (h : List.Forall₂ R l l')
    (h' : List.Forall₂ S l' l'') (trans : ∀ a b c, R a b → S b c → T a c) : List.Forall₂ T l l'' := by
  induction h generalizing l'' with
  | nil => cases h'; exact .nil
  | cons hab _ ih =>
    cases h' with
    | cons hbc tl => exact .cons (trans _ _ _ hab hbc) (ih tl)

theorem forall₂_flatMap {γ : Type} {R : β → γ → Prop} {f : α → List β} {g : α → List γ} {l : List α}
    (h : ∀ a ∈ l, List.Forall₂ R (f a) (g a)) : List.Forall₂ R (l.flatMap f) (l.flatMap g) := by
  induction l with
  | nil => exact .nil
  | cons a l ih =>
    obtain ⟨first, others⟩ := List.forall_mem_cons.mp h
    rw [List.flatMap_cons, List.flatMap_cons]
    exact List.rel_append first (ih others)

theorem forall₂_getElem? {R : α → β → Prop} {l : List α} {l' : List β} (h : List.Forall₂ R l l') {i : Nat} {a : α}
    (ha : l[i]? = some a) : ∃ b, l'[i]? = some b ∧ R a b := by
  induction h generalizing i with
  | nil => cases ha
  | cons hab _ ih =>
    cases i with
    | zero => obtain rfl := Option.some.inj ha; exact ⟨_, rfl, hab⟩
    | succ i => exact ih ha

theorem forall₂_getElem?_right {R : α → β → Prop} {l : List α} {l' : List β} (h : List.Forall₂ R l l') {i : Nat} {b : β}
    (hb : l'[i]? = some b) : ∃ a, l[i]? = some a ∧ R a b := by
  induction h generalizing i with
  | nil => cases hb
  | cons hab _ ih =>
    cases i with
    | zero => obtain rfl := Option.some.inj hb; exact ⟨_, rfl, hab⟩
    | succ i => exact ih hb

theorem forall₂_mem_right {R : α → β → Prop} {l : List α} {l' : List β} (h : List.Forall₂ R l l') {b : β}
    (hb : b ∈ l') : ∃ a ∈ l, R a b := by
  obtain ⟨i, hi⟩ := List.mem_iff_getElem?.mp hb
  obtain ⟨a, ha, hab⟩ := forall₂_getElem?_right h hi
  exact ⟨a, List.mem_of_getElem? ha, hab⟩

theorem forall₂_mem_left {R : α → β → Prop} {l : List α} {l' : List β} (h : List.Forall₂ R l l') {a : α}
    (ha : a ∈ l) : ∃ b ∈ l', R a b := by
  obtain ⟨i, hi⟩ := List.mem_iff_getElem?.mp ha
  obtain ⟨b, hb, hab⟩ := forall₂_getElem? h hi
  exact ⟨b, List.mem_of_getElem? hb, hab⟩

theorem forall₂_of_getElem? {R : α → β → Prop} {l : List α} {l' : List β} (len : l.length = l'.length)
    (h : ∀ (i : Nat) a b, l[i]? = some a → l'[i]? = some b → R a b) : List.Forall₂ R l l' := by
  refine List.forall₂_iff_get.mpr ⟨len, fun i hi hi' => ?_⟩
  exact h i _ _ (List.getElem?_eq_getElem hi) (List.getElem?_eq_getElem hi')

theorem forall₂_set {R : α → α → Prop} (refl : ∀ a, R a a) :
    ∀ {l : List α} {i : Nat} {a b : α}, l[i]? = some a → R a b → List.Forall₂ R l (l.set i b)
  | _ :: l, 0, _, b, h, hab => by
    obtain rfl := Option.some.inj h
    exact .cons hab (List.forall₂_same.mpr fun x _ => refl x)
  | x :: _, i + 1, _, _, h, hab => .cons (refl x) (forall₂_set refl (i := i) h hab)

theorem map_eq_of_forall₂ {R : α → α → Prop} {f : α → β} {l l' : List α} (h : List.Forall₂ R l l')
    (agree : ∀ a b, R a b → f b = f a) : l'.map f = l.map f := by
  induction h with
  | nil => rfl
  | cons hab _ ih => rw [List.map_cons, List.map_cons, agree _ _ hab, ih]

theorem countP_lt_countP {p q : α → Bool} {l : List α} (imp : ∀ x ∈ l, p x → q x) {a : α} (ha : a ∈ l) (hq : q a = true)
    (hp : p a = false) : l.countP p < l.countP q := by
  obtain ⟨before, after, rfl⟩ := List.append_of_mem ha
  have hbefore : before.countP p ≤ before.countP q :=
    List.countP_mono_left fun x hx => imp x (List.mem_append_left _ hx)
  have hafter : after.countP p ≤ after.countP q :=
    List.countP_mono_left fun x hx => imp x (List.mem_append_right _ (List.mem_cons_of_mem _ hx))
  simp only [List.countP_append, List.countP_cons, hp, hq, Bool.false_eq_true, if_false, if_true]
  omega

theorem countP_le_of_forall₂ {R : α → β → Prop} {p : α → Bool} {q : β → Bool} (imp : ∀ {a b}, R a b → q b → p a)
    {l : List α} {l' : List β} (h : List.Forall₂ R l l') : l'.countP q ≤ l.countP p := by
  induction h with
  | nil => exact Nat.le_refl _
  | @cons a b l l' hab _ ih =>
    rw [List.countP_cons, List.countP_cons]
    by_cases hq : q b = true
    · rw [if_pos hq, if_pos (imp hab hq)]
      omega
    · rw [if_neg hq]
      omega

theorem sum_map_le_of_forall₂ {R : α → β → Prop} {f : α → Nat} {g : β → Nat} (le : ∀ {a b}, R a b → g b ≤ f a)
    {l : List α} {l' : List β} (h : List.Forall₂ R l l') : (l'.map g).sum ≤ (l.map f).sum := by
  induction h with
  | nil => exact Nat.le_refl _
  | cons hab _ ih =>
    have := le hab
    simp only [List.map_cons, List.sum_cons]
    omega

theorem sum_map_filter {p : α → Bool} {f : α → Nat} : ∀ {l : List α}, (∀ x ∈ l, p x = false → f x = 0) →
    ((l.filter p).map f).sum = (l.map f).sum
  | [], _ => rfl
  | x :: l, h => by
    have rest := sum_map_filter fun y hy => h y (List.mem_cons_of_mem x hy)
    by_cases hp : p x = true
    · rw [List.filter_cons_of_pos hp, List.map_cons, List.map_cons, List.sum_cons, List.sum_cons, rest]
    · rw [List.filter_cons_of_neg hp, rest, List.map_cons, List.sum_cons,
        h x List.mem_cons_self (Bool.not_eq_true _ ▸ hp), Nat.zero_add]

theorem pairwise_of_forall₂ {R : α → α → Prop} {S : β → β → Prop} {T : α → β → Prop} {l : List α} {l' : List β}
    (h : List.Forall₂ T l l') (hl : l.Pairwise R) (step : ∀ {a a' b b'}, T a b → T a' b' → R a a' → S b b') :
    l'.Pairwise S := by
  induction h with
  | nil => exact .nil
  | cons hab tl ih =>
    rw [List.pairwise_cons] at hl ⊢
    refine ⟨fun b' hb' => ?_, ih hl.2⟩
    obtain ⟨a', ha', hab'⟩ := forall₂_mem_right tl hb'
    exact step hab hab' (hl.1 a' ha')

/-! ### Two keys -/

/-- A list is sorted by one key, and by another one where the first is the same. -/
theorem pairwise_insertionSort_lex {κ ι : Type} [LinearOrder κ] [LinearOrder ι] (f : α → κ) (g : α → ι)
    [DecidableRel fun a b : α => f a < f b ∨ f a = f b ∧ g a ≤ g b] (l : List α) :
    (l.insertionSort fun a b => f a < f b ∨ f a = f b ∧ g a ≤ g b).Pairwise fun a b => f a < f b ∨ f a = f b ∧
    g a ≤ g b := by
  have total : Std.Total fun a b : α => f a < f b ∨ f a = f b ∧ g a ≤ g b := by
    refine ⟨fun a b => ?_⟩
    rcases lt_trichotomy (f a) (f b) with lt | eq | gt
    · exact .inl (.inl lt)
    · exact (le_total (g a) (g b)).imp (fun h => .inr ⟨eq, h⟩) fun h => .inr ⟨eq.symm, h⟩
    · exact .inr (.inl gt)
  have trans : IsTrans α fun a b : α => f a < f b ∨ f a = f b ∧ g a ≤ g b := by
    refine ⟨fun a b c hab hbc => ?_⟩
    rcases hab with hab | ⟨eab, hab⟩ <;> rcases hbc with hbc | ⟨ebc, hbc⟩
    · exact .inl (hab.trans hbc)
    · exact .inl (ebc ▸ hab)
    · exact .inl (eab ▸ hbc)
    · exact .inr ⟨eab.trans ebc, hab.trans hbc⟩
  exact List.pairwise_insertionSort _ _

/-! ### Lists in parts -/

theorem perm_flatMap_filter {κ : Type} [DecidableEq κ] (key : α → κ) (l : List α) {ks : List κ} (nodup : ks.Nodup) :
    (ks.flatMap fun k => l.filter fun a => key a = k).Perm (l.filter fun a => key a ∈ ks) := by
  induction ks with
  | nil => simp
  | cons k ks ih =>
    obtain ⟨new, nodup⟩ := List.nodup_cons.mp nodup
    have whole := List.filter_append_perm (fun a => decide (key a = k)) (l.filter fun a => key a ∈ k :: ks)
    have first : (l.filter fun a => key a ∈ k :: ks).filter (fun a => decide (key a = k)) = l.filter fun a =>
      key a = k := by
      rw [List.filter_filter]
      refine List.filter_congr fun a _ => ?_
      by_cases same : key a = k <;> simp [same]
    have others : (l.filter fun a => key a ∈ k :: ks).filter (fun a => !decide (key a = k)) = l.filter fun a =>
      key a ∈ ks := by
      rw [List.filter_filter]
      refine List.filter_congr fun a _ => ?_
      by_cases same : key a = k <;> simp [same, new]
    rw [first, others] at whole
    exact ((ih nodup).append_left _).trans whole

theorem snoc_eq_append_cons {l a b : List α} {x e : α} (h : l ++ [e] = a ++ x :: b) :
    (a = l ∧ x = e ∧ b = []) ∨ ∃ b', b = b' ++ [e] ∧ l = a ++ x :: b' := by
  rcases List.eq_nil_or_concat b with rfl | ⟨b', y, rfl⟩
  · obtain ⟨rfl, last⟩ := List.append_inj' h rfl
    exact .inl ⟨rfl, (List.cons.inj last).1.symm, rfl⟩
  · rw [List.concat_eq_append] at h ⊢
    have split : l ++ [e] = (a ++ x :: b') ++ [y] := by simpa using h
    obtain ⟨rfl, last⟩ := List.append_inj' split rfl
    exact .inr ⟨b', by rw [(List.cons.inj last).1], rfl⟩

theorem take_flatMap (f : α → List β) : ∀ (as : List α) (n : Nat), as = [] ∨
    ∃ front a part, front ++ [a] <+: as ∧ part <+: f a ∧ (as.flatMap f).take n = front.flatMap f ++ part
  | [], _ => .inl rfl
  | a :: as, n => by
    refine .inr ?_
    rw [List.flatMap_cons, List.take_append]
    have first : [] ++ [a] <+: a :: as := ⟨as, rfl⟩
    rcases Nat.le_total n (f a).length with short | long
    · refine ⟨[], a, (f a).take n, first, List.take_prefix _ _, ?_⟩
      rw [Nat.sub_eq_zero_of_le short, List.take_zero, List.append_nil]
      rfl
    · rw [List.take_of_length_le long]
      rcases take_flatMap f as (n - (f a).length) with rfl | ⟨front, b, part, pre, cut, same⟩
      · exact ⟨[], a, f a, first, List.prefix_rfl, by simp⟩
      · refine ⟨a :: front, b, part, List.cons_prefix_cons.mpr ⟨rfl, pre⟩, cut, ?_⟩
        rw [same, List.flatMap_cons, List.append_assoc]

/-! ### Lists and the sizes of sets -/

/-- A set has as many members as a list whose elements stand for its members, each for one. -/
theorem encard_eq_length {l : List α} {s : Set β} (f : α → β) (nodup : (l.map f).Nodup)
    (mem : ∀ b, b ∈ s ↔ b ∈ l.map f) :
    s.encard = l.length := by
  classical
  have same : s = ((l.map f).toFinset : Set β) := by
    ext b
    rw [mem, List.coe_toFinset]
    rfl
  rw [same, Set.encard_coe_eq_coe_finsetCard, List.toFinset_card_of_nodup nodup, List.length_map]

theorem mem_take_insertionSort {r : α → α → Prop} [DecidableRel r] {l : List α} {n : Nat}
    (short : l.length ≤ n) {a : α} :
    a ∈ (l.insertionSort r).take n ↔ a ∈ l := by
  rw [List.take_of_length_le (by rwa [List.length_insertionSort]), List.mem_insertionSort]

/-! ### Order statistics -/

section
variable {κ : Type} [LinearOrder κ]

/-- The `k`-th smallest element, counted from one. -/
structure IsKth (l : List κ) (k : Nat) (a : κ) : Prop where
  mem : a ∈ l
  fewer : l.countP (· < a) < k
  enough : k ≤ l.countP (· ≤ a)

theorem isKth_of_sorted {l : List κ} (sorted : l.Pairwise (· ≤ ·)) {i : Nat} (hi : i < l.length) :
    IsKth l (i + 1) l[i] := by
  have mono : ∀ {m n : Nat} (hm : m < l.length) (hn : n < l.length), m ≤ n → l[m] ≤ l[n] := by
    intro m n hm hn le
    rcases le.lt_or_eq with lt | rfl
    · exact List.pairwise_iff_getElem.mp sorted m n hm hn lt
    · exact le_refl _
  have parts (p : κ → Bool) (n : Nat) : l.countP p = (l.take n).countP p + (l.drop n).countP p := by
    rw [← List.countP_append, List.take_append_drop]
  refine ⟨List.getElem_mem hi, ?_, ?_⟩
  · have later : (l.drop i).countP (· < l[i]) = 0 := by
      refine List.countP_eq_zero.mpr fun b hb => ?_
      obtain ⟨j, hj, rfl⟩ := List.mem_iff_getElem.mp hb
      rw [List.length_drop] at hj
      simpa using mono hi (by omega) (Nat.le_add_right i j)
    have earlier := List.countP_le_length (p := fun b => decide (b < l[i])) (l := l.take i)
    rw [List.length_take] at earlier
    rw [parts _ i, later]
    omega
  · have earlier : (l.take (i + 1)).countP (· ≤ l[i]) = (l.take (i + 1)).length := by
      refine List.countP_eq_length.mpr fun b hb => ?_
      obtain ⟨j, hj, rfl⟩ := List.mem_iff_getElem.mp hb
      rw [List.length_take] at hj
      simpa using mono (by omega) hi (by omega)
    rw [parts _ (i + 1), earlier, List.length_take]
    omega

theorem IsKth.perm {l l' : List κ} {k : Nat} {a : κ} (h : IsKth l k a) (perm : l.Perm l') : IsKth l' k a :=
  ⟨perm.mem_iff.mp h.mem, perm.countP_eq _ ▸ h.fewer, perm.countP_eq _ ▸ h.enough⟩

theorem IsKth.mono {l l' : List κ} {k : Nat} {a b : κ} (h : IsKth l k a) (h' : IsKth l' k b)
    (le : List.Forall₂ (· ≤ ·) l l') : a ≤ b := by
  by_contra lt
  have atMost : l'.countP (· ≤ b) ≤ l.countP (· ≤ b) :=
    countP_le_of_forall₂ (fun le small => by simp only [decide_eq_true_eq] at small ⊢; exact le.trans small) le
  have below : l.countP (· ≤ b) ≤ l.countP (· < a) :=
    List.countP_mono_left fun c _ small => by
      simp only [decide_eq_true_eq] at small ⊢
      exact small.trans_lt (not_le.mp lt)
  have := h.fewer
  have := h'.enough
  omega

end

/-! ### Acyclic relations -/

/-- A relation that a rank decreases along has no cycle. -/
theorem acyclic_of_rank {r : α → α → Prop} (rank : α → Nat) (decreases : ∀ {x y}, r x y → rank y < rank x) (x : α) :
    ¬Relation.TransGen r x x := by
  have lower : ∀ {y}, Relation.TransGen r x y → rank y < rank x := by
    intro y path
    induction path with
    | single h => exact decreases h
    | tail _ h ih => exact (decreases h).trans ih
  exact fun path => (lower path).false

/-- In a list that is not empty, some element is not related to any of the list. -/
theorem exists_sink {r : α → α → Prop} (acyclic : ∀ x, ¬Relation.TransGen r x x) {l : List α} (nonempty : l ≠ []) :
    ∃ x ∈ l, ∀ y ∈ l, ¬r x y := by
  let after : {x // x ∈ l} → {x // x ∈ l} → Prop := fun a b => Relation.TransGen r b.1 a.1
  have : IsTrans _ after := ⟨fun _ _ _ hab hbc => hbc.trans hab⟩
  have : Std.Irrefl after := ⟨fun a => acyclic a.1⟩
  have : Finite {x // x ∈ l} := l.finite_toSet
  have wf : WellFounded after := Finite.wellFounded_of_trans_of_irrefl after
  obtain ⟨a, ha⟩ := List.exists_mem_of_ne_nil l nonempty
  obtain ⟨x, -, least⟩ := wf.has_min Set.univ ⟨⟨a, ha⟩, trivial⟩
  exact ⟨x.1, x.2, fun y hy h => least ⟨y, hy⟩ trivial (.single h)⟩

end Lists

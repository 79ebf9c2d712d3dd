import Mathlib.Algebra.Ring.Nat
import Mathlib.Data.List.Dedup
import Mathlib.Data.List.Forall2
import Mathlib.Data.List.Induction
import Mathlib.Data.List.Nodup
import Mathlib.Data.List.Perm.Basic

/-! Tables of records with a key: lists in which a record is found and replaced by its key. -/

namespace Keyed
variable {α κ : Type} [DecidableEq κ] (key : α → κ)

/-- The record with the key `k`. -/
def get (l : List α) (k : κ) : Option α := l.find? fun x => key x = k

/-- Replaces the record with `a`'s key, if there is one. -/
def update (l : List α) (a : α) : List α := l.map fun x => if key x = key a then a else x

/-- Replaces the record with `a`'s key, or appends `a`. -/
def put (l : List α) (a : α) : List α := if key a ∈ l.map key then update key l a else l ++ [a]

variable {key} {l : List α} {a x : α} {k : κ}

theorem get_eq_some (h : get key l k = some a) : a ∈ l ∧ key a = k :=
  ⟨List.mem_of_find?_eq_some h, by simpa using List.find?_some h⟩

theorem get_eq_none_iff : get key l k = none ↔ k ∉ l.map key := by
  simp [get, List.find?_eq_none]

omit [DecidableEq κ] in
theorem eq_of_key (hl : (l.map key).Nodup) (ha : a ∈ l) (hx : x ∈ l) (h : key a = key x) : a = x :=
  List.inj_on_of_nodup_map hl ha hx h

theorem get_of_mem (hl : (l.map key).Nodup) (ha : a ∈ l) : get key l (key a) = some a := by
  cases hg : get key l (key a) with
  | none => exact absurd (List.mem_map_of_mem ha) (get_eq_none_iff.mp hg)
  | some x =>
    obtain ⟨hx, hk⟩ := get_eq_some hg
    rw [eq_of_key hl hx ha hk]

@[simp] theorem map_key_update : (update key l a).map key = l.map key := by
  rw [update, List.map_map]
  apply List.map_congr_left
  intro x _
  by_cases h : key x = key a <;> simp [h]

theorem mem_update_of_ne (hx : x ∈ l) (h : key x ≠ key a) : x ∈ update key l a :=
  List.mem_map.mpr ⟨x, hx, by simp [h]⟩

theorem mem_update_self (hx : x ∈ l) (h : key x = key a) : a ∈ update key l a :=
  List.mem_map.mpr ⟨x, hx, by simp [h]⟩

theorem forall₂_update {R : α → α → Prop} {b : α} (hl : (l.map key).Nodup) (ha : a ∈ l)
    (hk : key b = key a) (hab : R a b)
    (others : ∀ x ∈ l, key x ≠ key a → R x x) : List.Forall₂ R l (update key l b) := by
  rw [update, List.forall₂_map_right_iff, List.forall₂_same]
  intro x hx
  by_cases h : key x = key a
  · rw [if_pos (h.trans hk.symm), eq_of_key hl hx ha h]
    exact hab
  · rw [if_neg (hk ▸ h)]
    exact others x hx h

theorem sum_update_le {f : α → Nat} {b : α} {n : Nat} (hl : (l.map key).Nodup) (ha : a ∈ l) (hk : key b = key a)
    (hab : f b ≤ f a + n) : ((update key l b).map f).sum ≤ (l.map f).sum + n := by
  induction l with
  | nil => cases ha
  | cons x l ih =>
    rw [List.map_cons, List.nodup_cons] at hl
    rw [update, List.map_cons, List.map_cons, List.sum_cons, List.map_cons, List.sum_cons, ← update]
    rcases List.mem_cons.mp ha with rfl | ha
    · have rest : update key l b = l := by
        refine (List.map_congr_left fun y hy => ?_).trans (List.map_id l)
        exact if_neg fun same => hl.1 (List.mem_map.mpr ⟨y, hy, same.trans hk⟩)
      rw [if_pos hk.symm, rest]
      omega
    · have other : key x ≠ key b := fun same => hl.1 (List.mem_map.mpr ⟨a, ha, (same.trans hk).symm⟩)
      rw [if_neg other]
      have := ih hl.2 ha
      omega

theorem put_of_mem (h : x ∈ l) (hk : key x = key a) : put key l a = update key l a :=
  if_pos (hk ▸ List.mem_map_of_mem h)

theorem put_of_not_mem (h : key a ∉ l.map key) : put key l a = l ++ [a] := if_neg h

theorem get_update_of_ne (h : k ≠ key a) : get key (update key l a) k = get key l k := by
  have other (x : α) : key (if key x = key a then a else x) = k ↔ key x = k := by
    split_ifs with same
    · exact ⟨fun hk => absurd hk.symm h, fun hk => absurd (hk.symm.trans same) h⟩
    · rfl
  induction l with
  | nil => rfl
  | cons x l ih =>
    simp only [get, update, List.map_cons, List.find?_cons, other] at ih ⊢
    split
    · next found => rw [if_neg fun same => h ((of_decide_eq_true found).symm.trans same)]
    · exact ih

theorem get_put_self : get key (put key l a) (key a) = some a := by
  unfold put
  split_ifs with known
  · induction l with
    | nil => cases known
    | cons x l ih =>
      by_cases same : key x = key a
      · simp [get, update, same]
      · have later : key a ∈ l.map key := (List.mem_cons.mp known).resolve_left (Ne.symm same)
        have skip : get key (update key (x :: l) a) (key a) = get key (update key l a) (key a) := by
          simp [get, update, same]
        rw [skip]
        exact ih later
  · have missing : get key l (key a) = none := get_eq_none_iff.mpr known
    rw [get] at missing ⊢
    simp [List.find?_append, missing]

theorem get_put_of_ne (h : k ≠ key a) : get key (put key l a) k = get key l k := by
  unfold put
  split_ifs
  · exact get_update_of_ne h
  · rw [get, List.find?_append]
    simp [get, Ne.symm h]

theorem mem_or_eq_of_mem_put (h : x ∈ put key l a) : x ∈ l ∨ x = a := by
  unfold put at h
  split_ifs at h
  · obtain ⟨y, hy, rfl⟩ := List.mem_map.mp h
    split_ifs
    · exact .inr rfl
    · exact .inl hy
  · exact (List.mem_append.mp h).imp_right List.mem_singleton.mp

theorem eq_of_mem_put (h : x ∈ put key l a) (same : key x = key a) : x = a := by
  unfold put at h
  split_ifs at h with known
  · obtain ⟨y, -, rfl⟩ := List.mem_map.mp h
    split_ifs at same ⊢ with hit
    · rfl
    · exact absurd same hit
  · rcases List.mem_append.mp h with hx | hx
    · exact absurd (same ▸ List.mem_map_of_mem hx) known
    · exact List.mem_singleton.mp hx

theorem mem_map_put : k ∈ (put key l a).map key ↔ k ∈ l.map key ∨ k = key a := by
  unfold put
  split_ifs with known
  · rw [map_key_update]
    exact ⟨.inl, fun h => h.elim id fun same => same ▸ known⟩
  · simp

theorem nodup_put (hl : (l.map key).Nodup) : ((put key l a).map key).Nodup := by
  unfold put
  split_ifs with known
  · rwa [map_key_update]
  · rw [List.map_append, List.nodup_append]
    refine ⟨hl, List.nodup_singleton _, ?_⟩
    rintro x hx y hy rfl
    exact known (List.mem_singleton.mp hy ▸ hx)

/-! ### Several updates -/

variable {as : List α}

theorem foldl_update : as.foldl (update key) l = l.map fun x =>
    as.foldl (fun x a => if key x = key a then a else x) x := by
  induction as generalizing l with
  | nil => exact (List.map_id l).symm
  | cons a as ih =>
    rw [List.foldl_cons, ih, update, List.map_map]
    rfl

theorem key_foldl_replace : key (as.foldl (fun x a => if key x = key a then a else x) x) = key x := by
  induction as generalizing x with
  | nil => rfl
  | cons a as ih =>
    rw [List.foldl_cons, ih]
    split_ifs with same
    · exact same.symm
    · rfl

theorem foldl_put_again : as.foldl (put key) (as.foldl (put key) l) = as.foldl (put key) l := by
  -- All keys are known then, and each has the last of its records.
  have first : (∀ a ∈ as, key a ∈ (as.foldl (put key) l).map key) ∧
      ∀ x ∈ as.foldl (put key) l, as.foldl (fun x a => if key x = key a then a else x) x = x := by
    induction as using List.reverseRecOn with
    | nil => simp
    | append_singleton as a ih =>
      simp only [List.foldl_append, List.foldl_cons, List.foldl_nil, List.mem_append, List.mem_singleton, mem_map_put]
      refine ⟨fun b hb => hb.imp (ih.1 b) (congrArg key), fun x hx => ?_⟩
      by_cases same : key x = key a
      · rw [if_pos (key_foldl_replace.trans same), eq_of_mem_put hx same]
      · rw [ih.2 x ((mem_or_eq_of_mem_put hx).resolve_right fun eq => same (congrArg key eq)), if_neg same]
  have second : ∀ {as m : List α}, (∀ a ∈ as, key a ∈ m.map key) → as.foldl (put key) m = as.foldl (update key) m := by
    intro as
    induction as with
    | nil => exact fun _ => rfl
    | cons a as ih =>
      intro m known
      obtain ⟨here, later⟩ := List.forall_mem_cons.mp known
      rw [List.foldl_cons, List.foldl_cons, put, if_pos here]
      exact ih (by simpa using later)
  rw [second first.1, foldl_update]
  exact (List.map_congr_left first.2).trans (List.map_id _)

theorem foldl_replace_of_ne (h : ∀ a ∈ as, key a ≠ key x) :
    as.foldl (fun x a => if key x = key a then a else x) x = x := by
  induction as with
  | nil => rfl
  | cons a as ih =>
    rw [List.foldl_cons, if_neg (h a List.mem_cons_self).symm]
    exact ih fun b hb => h b (List.mem_cons_of_mem a hb)

theorem foldl_replace_of_mem (keys : (as.map key).Nodup) (ha : a ∈ as) (hk : key x = key a) :
    as.foldl (fun x a => if key x = key a then a else x) x = a := by
  induction as with
  | nil => cases ha
  | cons b as ih =>
    rw [List.map_cons, List.nodup_cons] at keys
    rw [List.foldl_cons]
    rcases List.mem_cons.mp ha with rfl | ha
    · rw [if_pos hk]
      exact foldl_replace_of_ne fun c hc eq => keys.1 (eq ▸ List.mem_map_of_mem hc)
    · have other : key x ≠ key b := by
        rw [hk]
        exact fun eq => keys.1 (eq ▸ List.mem_map_of_mem ha)
      rw [if_neg other]
      exact ih keys.2 ha

/-- Updates with different keys, one after the other, replace each record at most once. -/
theorem foldl_update_eq {f : α → α} (keys : (as.map key).Nodup) (hit : ∀ x ∈ l, ∀ a ∈ as, key x = key a → f x = a)
    (miss : ∀ x ∈ l, (∀ a ∈ as, key a ≠ key x) → f x = x) : as.foldl (update key) l = l.map f := by
  rw [foldl_update]
  refine List.map_congr_left fun x hx => ?_
  by_cases h : ∃ a ∈ as, key x = key a
  · obtain ⟨a, ha, hk⟩ := h
    rw [foldl_replace_of_mem keys ha hk, hit x hx a ha hk]
  · have none_ : ∀ a ∈ as, key a ≠ key x := fun a ha hk => h ⟨a, ha, hk.symm⟩
    rw [foldl_replace_of_ne none_, miss x hx none_]

/-! ### The first record of each key -/

omit [DecidableEq κ] in
theorem flatMap_split {β : Type} {f : β → List α} {before after : List α} :
    ∀ {bs : List β}, bs.flatMap f = before ++ x :: after →
      ∃ bs₁ b bs₂ p q, bs = bs₁ ++ b :: bs₂ ∧ f b = p ++ x :: q ∧ before = bs₁.flatMap f ++ p
  | [], h => by simp at h
  | b :: bs, h => by
    rw [List.flatMap_cons] at h
    rcases List.append_eq_append_iff.mp h with ⟨rest, rfl, later⟩ | ⟨rest, group, later⟩
    · obtain ⟨bs₁, b', bs₂, p, q, rfl, group, rfl⟩ := flatMap_split later
      exact ⟨b :: bs₁, b', bs₂, p, q, rfl, group, by simp⟩
    · cases rest with
      | nil =>
        have rest : bs.flatMap f = [] ++ x :: after := later.symm
        obtain ⟨bs₁, b', bs₂, p, q, rfl, group', nil⟩ := flatMap_split rest
        obtain ⟨none, rfl⟩ := List.append_eq_nil_iff.mp nil.symm
        exact ⟨b :: bs₁, b', bs₂, [], q, rfl, group', by simp [none, group]⟩
      | cons y rest =>
        obtain ⟨rfl, _⟩ := List.cons.inj later
        exact ⟨[], b, bs, before, rest, rfl, group, rfl⟩

variable (key) in
/-- The records whose key no record before them has. -/
def firsts (l : List α) : List α := l.foldl (fun out a => if key a ∈ out.map key then out else out ++ [a]) []

theorem firsts_snoc : firsts key (l ++ [a]) = if key a ∈ (firsts key l).map key then firsts key l
    else firsts key l ++ [a] := by
  rw [firsts, List.foldl_append]
  rfl

theorem mem_map_firsts : k ∈ (firsts key l).map key ↔ k ∈ l.map key := by
  induction l using List.reverseRecOn with
  | nil => rfl
  | append_singleton l a ih =>
    rw [firsts_snoc, List.map_append, List.mem_append, ← ih, List.map_singleton, List.mem_singleton]
    split_ifs with seen
    · exact ⟨.inl, fun h => h.elim id fun same => same ▸ seen⟩
    · rw [List.map_append, List.mem_append, List.map_singleton, List.mem_singleton]

theorem nodup_firsts : ((firsts key l).map key).Nodup := by
  induction l using List.reverseRecOn with
  | nil => exact List.nodup_nil
  | append_singleton l a ih =>
    rw [firsts_snoc]
    split_ifs with seen
    · exact ih
    · rw [List.map_append, List.map_singleton]
      exact List.nodup_append_comm.mp (List.nodup_cons.mpr ⟨seen, ih⟩)

theorem length_firsts : (firsts key l).length = (l.map key).dedup.length := by
  rw [← List.length_map (f := key)]
  refine List.Perm.length_eq ((List.perm_ext_iff_of_nodup nodup_firsts (List.nodup_dedup _)).mpr fun k => ?_)
  rw [mem_map_firsts, List.mem_dedup]

theorem mem_take_firsts {n : Nat} : x ∈ (firsts key l).take n ↔
    ∃ before after, l = before ++ x :: after ∧ key x ∉ before.map key ∧ (before.map key).dedup.length < n := by
  induction l using List.reverseRecOn with
  | nil => simp [firsts]
  | append_singleton l a ih =>
    have split : (∃ before after, l ++ [a] = before ++ x :: after ∧ key x ∉ before.map key ∧
      (before.map key).dedup.length < n) ↔
        (∃ before after, l = before ++ x :: after ∧ key x ∉ before.map key ∧ (before.map key).dedup.length < n) ∨
          a = x ∧ key x ∉ l.map key ∧ (l.map key).dedup.length < n := by
      constructor
      · rintro ⟨before, after, same, fresh⟩
        cases after using List.reverseRecOn with
        | nil =>
          obtain ⟨rfl, last⟩ := List.append_inj' same rfl
          exact .inr ⟨List.singleton_inj.mp last, fresh⟩
        | append_singleton after z =>
          rw [← List.cons_append, ← List.append_assoc] at same
          obtain ⟨rfl, _⟩ := List.append_inj' same rfl
          exact .inl ⟨before, after, rfl, fresh⟩
      · rintro (⟨before, after, rfl, fresh⟩ | ⟨rfl, fresh⟩)
        · exact ⟨before, after ++ [a], by simp, fresh⟩
        · exact ⟨l, [], rfl, fresh⟩
    rw [split, ← ih, firsts_snoc]
    split_ifs with seen
    · refine ⟨.inl, fun h => h.elim id ?_⟩
      rintro ⟨rfl, fresh, _⟩
      exact absurd (mem_map_firsts.mp seen) fresh
    · rw [List.take_append, List.mem_append, ← length_firsts (l := l)]
      refine or_congr_right ?_
      constructor
      · intro h
        have room : 0 < n - (firsts key l).length := by
          rcases Nat.eq_zero_or_pos (n - (firsts key l).length) with full | room
          · rw [full] at h; exact nomatch h
          · exact room
        obtain rfl := List.mem_singleton.mp (List.mem_of_mem_take h)
        exact ⟨rfl, fun h => seen (mem_map_firsts.mpr h), by omega⟩
      · rintro ⟨rfl, _, room⟩
        rw [List.take_of_length_le (by rw [List.length_singleton]; omega)]
        exact List.mem_singleton_self a

theorem dedup_length_le {ks ks' : List κ} (h : ks ⊆ ks') : ks.dedup.length ≤ ks'.dedup.length :=
  (List.subperm_of_subset (List.nodup_dedup ks) fun _ hk => List.mem_dedup.mpr (h (List.mem_dedup.mp hk))).length_le

/-- The first records within a limit of a list that is made of groups: a group has one of them if it has a new key and
    few keys come before it. -/
theorem exists_mem_take_firsts {β : Type} {f : β → List α} {bs : List β} {n : Nat} {P : α → Prop}
    (uniform : ∀ b, ∀ x ∈ f b, ∀ y ∈ f b, P x → P y) :
    (∃ x ∈ (firsts key (bs.flatMap f)).take n, P x) ↔
      ∃ before b after, bs = before ++ b :: after ∧ ((before.flatMap f).map key).dedup.length < n ∧
        ∃ x ∈ f b, key x ∉ (before.flatMap f).map key ∧ P x := by
  constructor
  · rintro ⟨x, kept, hx⟩
    obtain ⟨before, after, split, fresh, few⟩ := mem_take_firsts.mp kept
    obtain ⟨bs₁, b, bs₂, p, q, rfl, group, rfl⟩ := flatMap_split split
    refine ⟨bs₁, b, bs₂, rfl, ?_, x, by rw [group]; simp, ?_, hx⟩
    · refine lt_of_le_of_lt (dedup_length_le ?_) few
      exact List.map_subset _ (List.subset_append_left _ _)
    · exact fun h => fresh (List.map_subset _ (List.subset_append_left _ _) h)
  · rintro ⟨before, b, after, rfl, few, x, hx, fresh, holds⟩
    -- The first record of the group whose key is new.
    have some : ((f b).find? fun z => key z ∉ (before.flatMap f).map key).isSome :=
      List.find?_isSome.mpr ⟨x, hx, decide_eq_true fresh⟩
    obtain ⟨y, found⟩ := Option.isSome_iff_exists.mp some
    obtain ⟨new, p, q, group, old⟩ := List.find?_eq_some_iff_append.mp found
    have keys : ((before.flatMap f) ++ p).map key ⊆ (before.flatMap f).map key := by
      rw [List.map_append]
      refine List.append_subset.mpr ⟨List.Subset.refl _, fun k hk => ?_⟩
      obtain ⟨z, hz, rfl⟩ := List.mem_map.mp hk
      simpa using old z hz
    refine ⟨y, mem_take_firsts.mpr ⟨before.flatMap f ++ p, q ++ after.flatMap f, ?_, ?_, ?_⟩, ?_⟩
    · rw [List.flatMap_append, List.flatMap_cons, group]
      simp
    · exact fun h => of_decide_eq_true new (keys h)
    · exact lt_of_le_of_lt (dedup_length_le keys) few
    · exact uniform b x hx y (by rw [group]; simp) holds

end Keyed

import Mathlib.Data.List.Infix
import Mathlib.Data.List.TakeWhile
import Aquila.Go

/-! Go's string functions on texts of a known form. -/

namespace Aquila
variable {p : Char → Bool} {l : List Char} {s : String} {c : Char}

theorem forall_mem_of_all {p : Char → Prop} [DecidablePred p] (h : (l.all fun c => decide (p c)) = true) :
    ∀ c ∈ l, p c :=
  fun c hc => of_decide_eq_true (List.all_eq_true.mp h c hc)

/-! ### Prefixes -/

theorem hasPrefix_ofList (l : List Char) (pre : String) : hasPrefix (.ofList l) pre = pre.toList.isPrefixOf l := by
  rw [hasPrefix, String.toList_ofList]

theorem hasPrefix_iff {pre : String} : hasPrefix s pre = true ↔ pre.toList <+: s.toList := List.isPrefixOf_iff_prefix

theorem hasPrefix_append (pre : String) (l : List Char) : hasPrefix (.ofList (pre.toList ++ l)) pre = true :=
  hasPrefix_iff.mpr (by rw [String.toList_ofList]; exact List.prefix_append _ _)

theorem hasPrefix_of_head (pre : String) (h : pre.toList.head?.any (· ≠ c) = true) :
    hasPrefix (.ofList (c :: l)) pre = false := by
  rw [hasPrefix_ofList]
  cases hp : pre.toList with
  | nil => simp [hp] at h
  | cons d ds =>
    rw [hp, List.head?_cons, Option.any_some, decide_eq_true_eq] at h
    rw [List.isPrefixOf_cons_cons, beq_false_of_ne h, Bool.false_and]

theorem hasPrefix_of_apart (lit pre : String) (t : List Char) (h : hasPrefix lit pre = false)
    (h' : hasPrefix pre lit = false) :
    hasPrefix (.ofList (lit.toList ++ t)) pre = false := by
  by_contra both
  have pref := hasPrefix_iff.mp (Bool.eq_true_of_not_eq_false both)
  rw [String.toList_ofList] at pref
  rcases List.prefix_or_prefix_of_prefix pref (List.prefix_append lit.toList t) with short | long
  · rw [hasPrefix_iff.mpr short] at h
    cases h
  · rw [hasPrefix_iff.mpr long] at h'
    cases h'

theorem hasPrefix_of_literal (lit pre : String) (t : List Char) (h : hasPrefix lit pre = true) :
    hasPrefix (.ofList (lit.toList ++ t)) pre = true :=
  hasPrefix_iff.mpr (by rw [String.toList_ofList]; exact (hasPrefix_iff.mp h).trans (List.prefix_append _ _))

theorem trimPrefix_append (pre : String) (l : List Char) : trimPrefix (.ofList (pre.toList ++ l)) pre = .ofList l := by
  rw [trimPrefix, if_pos (hasPrefix_append pre l), String.toList_ofList, List.drop_left]

theorem trimPrefix_of_not {pre : String} (h : hasPrefix s pre = false) : trimPrefix s pre = s := by
  rw [trimPrefix, h, if_neg Bool.false_ne_true]

/-! ### Trimming and cutting -/

theorem head_dropWhile (h : (l.dropWhile p).head? = some c) : p c = false := by
  have := List.head?_dropWhile_not p l
  rw [h] at this
  simpa using this

theorem getLast_trimBoth (h : (trimBoth p l).getLast? = some c) : p c = false := by
  rw [trimBoth, List.getLast?_reverse] at h
  exact head_dropWhile h

theorem dropWhile_of_head (first : ∀ c, l.head? = some c → p c = false) : l.dropWhile p = l := by
  cases l with
  | nil => rfl
  | cons c l => rw [List.dropWhile_cons, first c rfl, if_neg Bool.false_ne_true]

theorem dropWhile_append_of_head {m : List Char} (ne : m ≠ []) (first : ∀ c, m.head? = some c → p c = false)
    (l rest : List Char) : (l ++ (m ++ rest)).dropWhile p = l.dropWhile p ++ (m ++ rest) := by
  have stop : (m ++ rest).dropWhile p = m ++ rest := dropWhile_of_head fun c hc =>
    first c (by rwa [List.head?_append_of_ne_nil _ ne] at hc)
  rw [List.dropWhile_append, stop]
  split_ifs with all
  · rw [List.isEmpty_iff.mp all, List.nil_append]
  · rfl

theorem trimBoth_of_ends (first : ∀ c, l.head? = some c → p c = false)
    (last : ∀ c, l.getLast? = some c → p c = false) : trimBoth p l = l := by
  rw [trimBoth, dropWhile_of_head first, dropWhile_of_head (by rw [List.head?_reverse]; exact last),
    List.reverse_reverse]

theorem head_trimBoth (h : (trimBoth p l).head? = some c) : p c = false := by
  rw [trimBoth, List.head?_reverse] at h
  have suffix : ((l.dropWhile p).reverse.dropWhile p) <:+ (l.dropWhile p).reverse := List.dropWhile_suffix p
  obtain ⟨pre, split⟩ := suffix
  have last : (l.dropWhile p).reverse.getLast? = some c := by
    rw [← split, List.getLast?_append, h, Option.some_or]
  rw [List.getLast?_reverse] at last
  exact head_dropWhile last

theorem trimBoth_prefix : trimBoth p l <+: l.dropWhile p := by
  rw [trimBoth, ← List.reverse_suffix, List.reverse_reverse]
  exact List.dropWhile_suffix p

theorem trimBoth_subset : trimBoth p l ⊆ l := by
  intro c hc
  rw [trimBoth, List.mem_reverse] at hc
  exact (List.dropWhile_suffix _).subset (List.mem_reverse.mp ((List.dropWhile_suffix _).subset hc))

theorem trimSpace_subset (s : String) : (trimSpace s).toList ⊆ s.toList := by
  rw [trimSpace, String.toList_ofList]
  exact trimBoth_subset

theorem mem_trimBoth_iff (kept : p c = false) : c ∈ trimBoth p l ↔ c ∈ l := by
  have later {l : List Char} (h : c ∈ l) : c ∈ l.dropWhile p := by
    rw [← List.takeWhile_append_dropWhile (p := p) (l := l), List.mem_append] at h
    refine h.resolve_left fun mem => ?_
    rw [List.mem_takeWhile_imp mem] at kept
    cases kept
  refine ⟨fun h => trimBoth_subset h, fun h => ?_⟩
  rw [trimBoth, List.mem_reverse]
  exact later (List.mem_reverse.mpr (later h))

theorem trimBoth_of_none {s : List Char} (h : ∀ c ∈ s, p c = false) : trimBoth p s = s :=
  trimBoth_of_ends (fun c hc => h c (List.mem_of_head? hc)) fun c hc => h c (List.mem_of_getLast? hc)

theorem trimSpace_of_none (h : ∀ c ∈ s.toList, isSpace c = false) : trimSpace s = s := by
  rw [trimSpace, trimBoth_of_none h, String.ofList_toList]

theorem cutBefore_of_not_mem (h : c ∉ s.toList) : cutBefore s c = s := by
  have whole : s.toList.takeWhile (fun d => decide (d ≠ c)) = s.toList := by
    rw [List.takeWhile_eq_self_iff]
    intro d hd
    exact decide_eq_true fun same => h (same ▸ hd)
  rw [cutBefore, whole, String.ofList_toList]

theorem cutBefore_append {rest : List Char} (h : c ∉ l) : cutBefore (.ofList (l ++ c :: rest)) c = .ofList l := by
  have before : (l ++ c :: rest).takeWhile (fun d => decide (d ≠ c)) = l := by
    rw [List.takeWhile_append_of_pos]
    · simp
    · intro d hd
      exact decide_eq_true fun same => h (same ▸ hd)
  rw [cutBefore, String.toList_ofList, before]

theorem splitN2_append {rest : List Char} (h : c ∉ l) :
    splitN2 (.ofList (l ++ c :: rest)) c = [.ofList l, .ofList rest] := by
  have after : (l ++ c :: rest).dropWhile (fun d => decide (d ≠ c)) = c :: rest := by
    rw [List.dropWhile_append_of_pos fun d hd => by simpa using fun same : d = c => h (same ▸ hd)]
    simp
  rw [splitN2, String.toList_ofList, after]
  simp only [cutBefore_append h]

theorem splitN2_of_not_mem (h : c ∉ s.toList) : splitN2 s c = [s] := by
  have none : s.toList.dropWhile (fun d => decide (d ≠ c)) = [] := by
    rw [List.dropWhile_eq_nil_iff]
    exact fun d hd => by simpa using fun same : d = c => h (same ▸ hd)
  rw [splitN2, none]

theorem splitN2_eq_pair_iff {a b : String} : splitN2 s c = [a, b] ↔ s.toList = a.toList ++ c :: b.toList ∧
    c ∉ a.toList := by
  constructor
  · intro pair
    by_cases mem : c ∈ s.toList
    · obtain ⟨l, rest, whole, fresh⟩ := List.eq_append_cons_of_mem mem
      rw [← @String.ofList_toList s, whole, splitN2_append fresh] at pair
      obtain ⟨rfl, tail⟩ := List.cons.inj pair
      obtain ⟨rfl, -⟩ := List.cons.inj tail
      rw [String.toList_ofList, String.toList_ofList]
      exact ⟨whole, fresh⟩
    · rw [splitN2_of_not_mem mem] at pair
      cases (List.cons.inj pair).2
  · rintro ⟨whole, fresh⟩
    rw [← @String.ofList_toList s, whole, splitN2_append fresh, String.ofList_toList, String.ofList_toList]

theorem splitChars_eq_splitOn (c : Char) (l : List Char) : splitChars c l = l.splitOn c := by
  induction l with
  | nil => rfl
  | cons x l ih =>
    rw [splitChars, List.splitOn_cons_eq_if_modifyHead, ih]
    by_cases same : x = c
    · simp [same]
    · cases parts : l.splitOn c with
      | nil => exact absurd parts (List.splitOn_ne_nil c l)
      | cons w ws => simp [same]

theorem splitChars_append (c : Char) (l rest : List Char) :
    splitChars c (l ++ c :: rest) = splitChars c l ++ splitChars c rest := by
  simp only [splitChars_eq_splitOn, List.splitOn_append_cons_self]

theorem splitChars_of_not_mem (h : c ∉ l) : splitChars c l = [l] := by
  rw [splitChars_eq_splitOn, List.splitOn_eq_singleton h]

theorem join_cons {sep e : String} {es : List String} (h : es ≠ []) : join sep (e :: es) = e ++ sep ++ join sep es := by
  cases es with
  | nil => exact absurd rfl h
  | cons x xs => rfl

theorem toList_join (sep : String) : ∀ es :
    List String, (join sep es).toList = sep.toList.intercalate (es.map String.toList)
  | [] => rfl
  | [e] => by simp [join, List.intercalate]
  | e :: x :: xs => by
    rw [join_cons (by simp), List.map_cons, List.map_cons, List.intercalate_cons_cons, String.toList_append,
      String.toList_append, toList_join sep (x :: xs)]
    simp

theorem split_join_sep {sep : String} (one : sep.toList = [c]) {es : List String} (h : ∀ e ∈ es, c ∉ e.toList)
    (ne : es ≠ []) :
    split (join sep es) c = es := by
  rw [split, splitChars_eq_splitOn, toList_join, one, List.splitOn_intercalate, List.map_map]
  · simp [Function.comp_def]
  · simpa using h
  · simpa using ne

theorem mem_of_mem_splitChars {x : Char} {seg : List Char} (h : seg ∈ splitChars c l) (hx : x ∈ seg) : x ∈ l := by
  induction l generalizing seg with
  | nil =>
    rw [splitChars, List.mem_singleton] at h
    rw [h] at hx
    cases hx
  | cons y l ih =>
    rw [splitChars] at h
    split_ifs at h
    · rcases List.mem_cons.mp h with rfl | h
      · cases hx
      · exact List.mem_cons_of_mem _ (ih h hx)
    · cases rest : splitChars c l with
      | nil =>
        rw [rest] at h
        rw [List.mem_singleton.mp h] at hx
        exact List.mem_singleton.mp hx ▸ List.mem_cons_self
      | cons w ws =>
        rw [rest] at h ih
        rcases List.mem_cons.mp h with rfl | h
        · rcases List.mem_cons.mp hx with rfl | hx
          · exact List.mem_cons_self
          · exact List.mem_cons_of_mem _ (ih List.mem_cons_self hx)
        · exact List.mem_cons_of_mem _ (ih (List.mem_cons_of_mem _ h) hx)

theorem cutChars_append (h : c ∉ l) (cs rest : List Char) :
    cutChars (c :: cs) (l ++ (c :: cs ++ rest)) = some (l, rest) := by
  induction l with
  | nil =>
    have here : (c :: cs).isPrefixOf (c :: (cs ++ rest)) = true := List.isPrefixOf_iff_prefix.mpr ⟨rest, rfl⟩
    rw [List.nil_append, List.cons_append, cutChars, if_pos here]
    simp
  | cons d l ih =>
    rw [List.mem_cons, not_or] at h
    have later : (c :: cs).isPrefixOf (d :: (l ++ (c :: cs ++ rest))) = false := by
      rw [List.isPrefixOf_cons_cons, beq_false_of_ne h.1, Bool.false_and]
    rw [List.cons_append, cutChars, later, if_neg Bool.false_ne_true, ih h.2]
    rfl

theorem eq_of_cutChars {sub before after : List Char} (h : cutChars sub l = some (before, after)) :
    l = before ++ sub ++ after := by
  induction l generalizing before after with
  | nil =>
    rw [cutChars] at h
    split_ifs at h with empty
    cases h
    rw [empty]
    rfl
  | cons c l ih =>
    rw [cutChars] at h
    split_ifs at h with here
    · cases h
      obtain ⟨rest, eq⟩ := List.isPrefixOf_iff_prefix.mp here
      rw [← eq, List.drop_left, List.nil_append]
    · obtain ⟨⟨before', after'⟩, found, same⟩ := Option.map_eq_some_iff.mp h
      cases same
      rw [ih found]
      rfl

theorem not_mem_of_cutChars {before after : List Char} (h : cutChars [c] l = some (before, after)) : c ∉ before := by
  induction l generalizing before after with
  | nil => cases h
  | cons x l ih =>
    rw [cutChars] at h
    split_ifs at h with here
    · cases h
      exact List.not_mem_nil
    · obtain ⟨⟨before', after'⟩, found, same⟩ := Option.map_eq_some_iff.mp h
      cases same
      have other : c ≠ x := fun same => here (by simp [same])
      exact List.not_mem_cons_of_ne_of_not_mem other (ih found)

theorem isSome_cutChars {sub l : List Char} (ne : sub ≠ []) : (cutChars sub l).isSome = l.tails.any fun t =>
    sub.isPrefixOf t := by
  induction l with
  | nil => cases sub <;> simp_all [cutChars]
  | cons c l ih =>
    rw [cutChars, List.tails_cons, List.any_cons, ← ih]
    by_cases here : sub.isPrefixOf (c :: l) = true
    · rw [if_pos here, here]
      rfl
    · rw [if_neg here, Option.isSome_map, Bool.eq_false_iff.mpr here, Bool.false_or]

theorem replaceAll_of_not_mem {old new : Char} (h : old ∉ s.toList) : replaceAll s old new = s := by
  have same : s.toList.map (fun c => if c = old then new else c) = s.toList.map id :=
    List.map_congr_left fun c hc => if_neg fun (eq : c = old) => h (eq ▸ hc)
  rw [replaceAll, same, List.map_id, String.ofList_toList]

theorem fields_two {w w' : List Char} (h : ∀ c ∈ w, isSpace c = false) (h' : ∀ c ∈ w', isSpace c = false) (ne : w ≠ [])
    (ne' : w' ≠ []) :
    fields (.ofList (w ++ ' ' :: w')) = [.ofList w, .ofList w'] := by
  have parts : (w ++ ' ' :: w').splitOnP isSpace = [w, w'] := by
    rw [List.splitOnP_append_cons_of_forall_mem h ' ' (by decide), List.splitOnP_eq_singleton h']
  rw [fields, String.toList_ofList, parts]
  simp [ne, ne']

theorem contains_iff {sub : String} : contains s sub = true ↔ sub.toList <:+: s.toList := by
  simp only [contains, List.any_eq_true, List.mem_tails, List.isPrefixOf_iff_prefix, List.infix_iff_prefix_suffix]
  exact ⟨fun ⟨t, suffix, pre⟩ => ⟨t, pre, suffix⟩, fun ⟨t, pre, suffix⟩ => ⟨t, suffix, pre⟩⟩

/-! ### Numbers -/

theorem int64_of_range {x : Int} (low : -2 ^ 63 ≤ x) (high : x < 2 ^ 63) : int64 x = x := by
  rw [int64, Int.emod_eq_of_lt (by omega) (by omega)]
  omega

theorem int64_lt (x : Int) : int64 x < 2 ^ 63 := by
  have := Int.emod_lt_of_pos (x + 2 ^ 63) (show (0 : Int) < 2 ^ 64 by decide)
  rw [int64]
  omega

theorem int64_succ (x : Int) : int64 (int64 x + 1) = int64 (x + 1) := by
  simp only [int64]
  omega

theorem atoi_digits (n : Nat) : atoi (.ofList (Nat.toDigits 10 n)) = if n < 2 ^ 63 then some (n : Int) else none := by
  have digit : ∀ c ∈ Nat.toDigits 10 n, c.isDigit = true := fun c hc => Nat.isDigit_of_mem_toDigits (by decide)
    (by decide) hc
  have all : (Nat.toDigits 10 n).all Char.isDigit = true := List.all_eq_true.mpr digit
  have signless : ∀ c ∈ ['-', '+'], ∀ cs, Nat.toDigits 10 n ≠ c :: cs := by
    intro c hc cs same
    have isDigit := digit c (same ▸ List.mem_cons_self)
    simp only [List.mem_cons, List.not_mem_nil, or_false] at hc
    rcases hc with rfl | rfl <;> exact absurd isDigit (by decide)
  unfold atoi
  rw [String.toList_ofList]
  split
  next negative digits parts =>
  split at parts
  · next same => exact absurd same (signless '-' (by simp) _)
  · next same => exact absurd same (signless '+' (by simp) _)
  · obtain ⟨rfl, rfl⟩ := Prod.mk.inj parts
    simp only [all, Nat.toDigits_ne_nil, Nat.ofDigitChars_ten_toDigits, Bool.not_true, Bool.false_eq_true,
      or_self, if_false]
    split_ifs <;> first | rfl | omega

end Aquila

import Mathlib.Algebra.Order.BigOperators.Group.List
import Mathlib.Algebra.Ring.Nat
import Aquila.Theorems.Diff.Read

/-! Slash-separated paths by their elements, and which paths `CanonicalPath` leaves alone. The old side of a file
    under a directory `b` loses that directory. -/

namespace Aquila
variable {s e p : String} {c : Char}

/-! ### Elements -/

/-- An element of a cleaned path that leads down. -/
structure Proper (e : String) : Prop where
  nonempty : e ≠ ""
  notHere : e ≠ "."
  notUp : e ≠ ".."
  plain : '/' ∉ e.toList

theorem split_join {es : List String} (h : ∀ e ∈ es, '/' ∉ e.toList) (ne : es ≠ []) : split (join "/" es) '/' = es :=
  split_join_sep rfl h ne

theorem eq_nil_of_join {es : List String} (h : ∀ e ∈ es, e ≠ "") (none : join "/" es = "") : es = [] := by
  cases es with
  | nil => rfl
  | cons e es =>
    cases es with
    | nil => exact absurd none (h e List.mem_cons_self)
    | cons x xs =>
      rw [join_cons (by simp)] at none
      simpa using congrArg String.toList none

theorem join_injective {es es' : List String} (h : ∀ e ∈ es, Proper e) (h' : ∀ e ∈ es', Proper e)
    (same : join "/" es = join "/" es') :
    es = es' := by
  by_cases ne : es = []
  · subst ne
    exact (eq_nil_of_join (fun e he => (h' e he).nonempty) same.symm).symm
  · by_cases ne' : es' = []
    · subst ne'
      exact eq_nil_of_join (fun e he => (h e he).nonempty) same
    · rw [← split_join (fun e he => (h e he).plain) ne, same, split_join (fun e he => (h' e he).plain) ne']

/-- The elements of a path that is cleaned. -/
def elements (s : String) : List String := ((split s '/').foldl (cleanElem (hasPrefix s "/")) []).reverse

theorem not_mem_of_mem_split (h : e ∈ split s c) : c ∉ e.toList := by
  obtain ⟨w, hw, rfl⟩ := List.mem_map.mp h
  rw [String.toList_ofList]
  clear h
  generalize s.toList = l at hw
  induction l generalizing w with
  | nil =>
    rw [splitChars, List.mem_singleton] at hw
    simp [hw]
  | cons x l ih =>
    rw [splitChars] at hw
    split_ifs at hw with same
    · rcases List.mem_cons.mp hw with rfl | hw
      · exact List.not_mem_nil
      · exact ih w hw
    · cases parts : splitChars c l with
      | nil =>
        rw [parts, List.mem_singleton] at hw
        simpa [hw] using Ne.symm same
      | cons w' ws =>
        rw [parts] at hw ih
        rcases List.mem_cons.mp hw with rfl | hw
        · have := ih w' List.mem_cons_self
          simp [Ne.symm same, this]
        · exact ih w (List.mem_cons_of_mem _ hw)

theorem cleanElem_spec (rooted : Bool) (out : List String) (elem : String) :
    (cleanElem rooted out elem).Sublist out ∨ elem ≠ "" ∧ elem ≠ "." ∧ cleanElem rooted out elem = elem :: out := by
  unfold cleanElem
  by_cases skip : elem = "" ∨ elem = "."
  · rw [if_pos skip]
    exact .inl (List.Sublist.refl _)
  · rw [if_neg skip]
    obtain ⟨nonempty, notHere⟩ := not_or.mp skip
    by_cases up : elem = ".."
    · rw [if_pos up]
      cases out with
      | nil =>
        cases rooted with
        | true => exact .inl (List.Sublist.refl _)
        | false => exact .inr ⟨nonempty, notHere, by rw [up]; rfl⟩
      | cons last rest =>
        dsimp only
        split_ifs
        · exact .inr ⟨nonempty, notHere, by rw [up]⟩
        · exact .inl (List.sublist_cons_self _ _)
    · rw [if_neg up]
      exact .inr ⟨nonempty, notHere, rfl⟩

theorem mem_elements (h : e ∈ elements s) : e ∈ split s '/' ∧ e ≠ "" ∧ e ≠ "." := by
  have all : ∀ (l out : List String), e ∈ l.foldl (cleanElem (hasPrefix s "/")) out → e ∈ out ∨ e ∈ l ∧
    e ≠ "" ∧ e ≠ "." := by
    intro l
    induction l with
    | nil => exact fun out h => .inl h
    | cons x l ih =>
      intro out h
      rcases ih _ h with h | ⟨mem, rest⟩
      · rcases cleanElem_spec (hasPrefix s "/") out x with fewer | ⟨nonempty, notHere, added⟩
        · exact .inl (fewer.subset h)
        · rcases List.mem_cons.mp (added ▸ h) with rfl | h
          · exact .inr ⟨List.mem_cons_self, nonempty, notHere⟩
          · exact .inl h
      · exact .inr ⟨List.mem_cons_of_mem _ mem, rest⟩
  exact (all _ _ (List.mem_reverse.mp h)).resolve_left List.not_mem_nil

theorem foldl_cleanElem_proper (rooted : Bool) : ∀ {es out : List String}, (∀ e ∈ es, Proper e) →
    es.foldl (cleanElem rooted) out = es.reverse ++ out
  | [], _, _ => rfl
  | e :: es, out, h => by
    obtain ⟨head, tail⟩ := List.forall_mem_cons.mp h
    have added : cleanElem rooted out e = e :: out := by
      simp only [cleanElem, head.nonempty, head.notHere, head.notUp, or_self, if_false]
    rw [List.foldl_cons, added, foldl_cleanElem_proper rooted tail, List.reverse_cons, List.append_assoc,
      List.singleton_append]

/-- The elements of a cleaned path. -/
structure Normal (rooted : Bool) (es : List String) : Prop where
  split : ∃ ups ps, es = ups ++ ps ∧ (∀ u ∈ ups, u = "..") ∧ (∀ p ∈ ps, Proper p) ∧ (rooted = true → ups = [])

section
variable {rooted : Bool} {es : List String}

theorem Normal.of_proper (h : ∀ e ∈ es, Proper e) : Normal rooted es :=
  ⟨[], es, rfl, List.forall_mem_nil _, h, fun _ => rfl⟩

theorem Normal.part (h : Normal rooted es) (mem : e ∈ es) :
    e ≠ "" ∧ e ≠ "." ∧ '/' ∉ e.toList := by
  obtain ⟨ups, ps, rfl, up, proper, -⟩ := h.split
  rcases List.mem_append.mp mem with mem | mem
  · rw [up e mem]
    decide
  · exact ⟨(proper e mem).nonempty, (proper e mem).notHere, (proper e mem).plain⟩

theorem Normal.append {rs : List String} (h : Normal rooted es) (proper : ∀ e ∈ rs, Proper e) :
    Normal rooted (es ++ rs) := by
  obtain ⟨ups, ps, rfl, up, proper', top⟩ := h.split
  refine ⟨ups, ps ++ rs, List.append_assoc .., up, fun p hp => ?_, top⟩
  rcases List.mem_append.mp hp with hp | hp
  · exact proper' p hp
  · exact proper p hp

theorem foldl_cleanElem_normal (h : Normal rooted es) : es.foldl (cleanElem rooted) [] = es.reverse := by
  obtain ⟨ups, ps, rfl, up, proper, top⟩ := h.split
  have climb : ∀ {ups out : List String}, (∀ u ∈ ups, u = "..") → (∀ u ∈ out, u = "..") → (rooted = true → ups = []) →
      ups.foldl (cleanElem rooted) out = ups.reverse ++ out := by
    intro ups
    induction ups with
    | nil => exact fun _ _ _ => rfl
    | cons u ups ih =>
      intro out up above top
      obtain ⟨rfl, rest⟩ := List.forall_mem_cons.mp up
      have relative : rooted = false := by
        cases rooted with
        | true => cases top rfl
        | false => rfl
      have added : cleanElem rooted out ".." = ".." :: out := by
        unfold cleanElem
        rw [if_neg (by decide), if_pos rfl, relative]
        cases out with
        | nil => rfl
        | cons last out => rw [above last List.mem_cons_self]; rfl
      rw [List.foldl_cons, added, ih rest (List.forall_mem_cons.mpr ⟨rfl, above⟩) (by simp [relative]),
        List.reverse_cons, List.append_assoc]
      rfl
  rw [List.foldl_append, climb up (List.forall_mem_nil _) top, foldl_cleanElem_proper rooted proper, List.append_nil,
    List.reverse_append]

theorem normal_elements (s : String) : Normal (hasPrefix s "/") (elements s) := by
  have step (rooted : Bool) : ∀ (l out : List String), (∀ e ∈ l, '/' ∉ e.toList) → Normal rooted out.reverse →
      Normal rooted (l.foldl (cleanElem rooted) out).reverse := by
    intro l
    induction l with
    | nil => exact fun _ _ h => h
    | cons e l ih =>
      intro out plain h
      obtain ⟨slash, rest⟩ := List.forall_mem_cons.mp plain
      refine ih _ rest ?_
      unfold cleanElem
      by_cases skip : e = "" ∨ e = "."
      · rwa [if_pos skip]
      · rw [if_neg skip]
        by_cases up : e = ".."
        · rw [if_pos up]
          cases out with
          | nil =>
            cases rooted with
            | true => exact h
            | false => exact ⟨[".."], [], rfl, by simp, by simp, by simp⟩
          | cons last out =>
            obtain ⟨ups, ps, parts, up', proper, top⟩ := h.split
            rw [List.reverse_cons] at parts
            dsimp only
            by_cases above : last = ".."
            · -- Nothing leads down from `..`.
              rw [if_pos above]
              have none : ps = [] := by
                rcases List.eq_nil_or_concat ps with none | ⟨ps', p, rfl⟩
                · exact none
                · rw [List.concat_eq_append, ← List.append_assoc] at parts
                  have same := List.singleton_inj.mp (List.append_inj_right' parts rfl)
                  exact absurd (same ▸ above : p = "..") (proper p (by simp)).notUp
              rw [none, List.append_nil] at parts
              refine ⟨ups ++ [".."], [], by simp [parts], ?_, by simp, fun rooted => ?_⟩
              · intro u hu
                rcases List.mem_append.mp hu with hu | hu
                · exact up' u hu
                · exact List.mem_singleton.mp hu
              · rw [top rooted] at parts
                simp at parts
            · rw [if_neg above]
              rcases List.eq_nil_or_concat ps with none | ⟨ps', p, rfl⟩
              · rw [none, List.append_nil] at parts
                exact absurd (up' last (by rw [← parts]; simp)) above
              · rw [List.concat_eq_append, ← List.append_assoc] at parts
                refine ⟨ups, ps', List.append_inj_left' parts rfl, up', fun p hp => proper p (by simp [hp]), top⟩
        · rw [if_neg up, List.reverse_cons]
          obtain ⟨nonempty, notHere⟩ := not_or.mp skip
          exact h.append fun p hp => List.mem_singleton.mp hp ▸ ⟨nonempty, notHere, up, slash⟩
  exact step (hasPrefix s "/") (split s '/') [] (fun e he => not_mem_of_mem_split he) ⟨[], [],
    rfl, by simp, by simp, by simp⟩

theorem empty_mem_split (h : hasPrefix s "/" = true) : "" ∈ split s '/' := by
  obtain ⟨t, text⟩ := hasPrefix_iff.mp h
  rw [split, ← text]
  exact List.mem_map.mpr ⟨[], by simp [splitChars], rfl⟩

theorem split_below (s t : String) : split (s ++ "/" ++ t) '/' = split s '/' ++ split t '/' := by
  have parts : (s ++ "/" ++ t).toList = s.toList ++ '/' :: t.toList := by
    rw [String.toList_append, String.toList_append, List.append_assoc]
    rfl
  rw [split, parts, splitChars_append, List.map_append]
  rfl

theorem hasPrefix_below (ne : s ≠ "") (t : String) : hasPrefix (s ++ "/" ++ t) "/" = hasPrefix s "/" := by
  obtain ⟨c, cs, chars⟩ := List.exists_cons_of_ne_nil fun none => ne (String.toList_inj.mp none)
  simp [hasPrefix, chars, List.isPrefixOf]

theorem hasPrefix_rooted (s : String) : hasPrefix ("/" ++ s) "/" = true :=
  hasPrefix_iff.mpr ⟨s.toList, String.toList_append.symm⟩

/-- The path of some elements. -/
def render (rooted : Bool) (es : List String) : String := if rooted then "/" ++ join "/" es else join "/" es

theorem split_render (h : Normal rooted es) (ne : es ≠ []) :
    split (render rooted es) '/' = if rooted then "" :: es else es := by
  have inner : split (join "/" es) '/' = es := split_join (fun e he => (h.part he).2.2) ne
  cases rooted with
  | false => exact inner
  | true =>
    have parts := split_below "" (join "/" es)
    rwa [String.empty_append, inner] at parts

theorem hasPrefix_render (h : Normal rooted es) (ne : es ≠ []) : hasPrefix (render rooted es) "/" = rooted := by
  cases rooted with
  | true => exact hasPrefix_rooted _
  | false =>
    by_contra slash
    have first := empty_mem_split (Bool.eq_true_of_not_eq_false slash)
    rw [split_render h ne, if_neg Bool.false_ne_true] at first
    exact (h.part first).1 rfl

theorem elements_render (h : Normal rooted es) (ne : es ≠ []) : elements (render rooted es) = es := by
  rw [elements, hasPrefix_render h ne, split_render h ne]
  cases rooted with
  | false =>
    rw [if_neg Bool.false_ne_true, foldl_cleanElem_normal h, List.reverse_reverse]
  | true =>
    rw [if_pos rfl, List.foldl_cons, cleanElem, if_pos (.inl rfl), foldl_cleanElem_normal h, List.reverse_reverse]

theorem hasPrefix_join (h : ∀ e ∈ es, Proper e) : hasPrefix (join "/" es) "/" = false := by
  by_cases ne : es = []
  · subst ne
    decide
  · exact @hasPrefix_render false es (.of_proper h) ne

theorem elements_join (h : ∀ e ∈ es, Proper e) : elements (join "/" es) = es := by
  by_cases ne : es = []
  · subst ne
    decide
  · exact @elements_render false es (.of_proper h) ne

end

theorem pathClean_eq (s : String) : pathClean s =
    if hasPrefix s "/" then "/" ++ join "/" (elements s) else if elements s = [] then "."
    else join "/" (elements s) := by
  have empty : join "/" (elements s) = "" ↔ elements s = [] := by
    refine ⟨eq_nil_of_join fun e he => ((normal_elements s).part he).1, fun none => ?_⟩
    rw [none]
    rfl
  unfold pathClean
  dsimp only
  rw [← elements]
  split_ifs with rooted none none' none'
  · rfl
  · rfl
  · exact absurd (empty.mp none) none'
  · exact absurd (empty.mpr none') none
  · rfl

theorem pathClean_render (ne : elements s ≠ []) : pathClean s = render (hasPrefix s "/") (elements s) := by
  rw [pathClean_eq, render, if_neg ne]

theorem pathClean_idem (s : String) : pathClean (pathClean s) = pathClean s := by
  by_cases ne : elements s = []
  · rw [pathClean_eq s, ne, if_pos rfl]
    split_ifs <;> decide
  · have normal := normal_elements s
    have again := elements_render normal ne
    rw [pathClean_render ne, pathClean_render (by rwa [again]), again, hasPrefix_render normal ne]

theorem join_elements (clean : pathClean p = p) (relative : hasPrefix p "/" = false) (proper : p ≠ ".") :
    join "/" (elements p) = p := by
  rw [pathClean_eq, relative, if_neg Bool.false_ne_true] at clean
  split_ifs at clean
  · exact absurd clean.symm proper
  · exact clean

/-! ### Lengths -/

def weight (es : List String) : Nat := (es.map fun e => e.toList.length + 1).sum

theorem weight_cleanElem (rooted : Bool) (out : List String) (elem : String) :
    weight (cleanElem rooted out elem) ≤ weight out + (elem.toList.length + 1) := by
  rcases cleanElem_spec rooted out elem with fewer | ⟨-, -, added⟩
  · exact ((fewer.map _).sum_le_sum fun _ _ => Nat.zero_le _).trans (Nat.le_add_right _ _)
  · rw [added, weight, List.map_cons, List.sum_cons, Nat.add_comm]
    exact Nat.le_refl _

theorem weight_elements (s : String) : weight (elements s) ≤ weight (split s '/') := by
  have all : ∀ (l out : List String), weight (l.foldl (cleanElem (hasPrefix s "/")) out) ≤ weight out + weight l := by
    intro l
    induction l with
    | nil => simp [weight]
    | cons e l ih =>
      intro out
      have := ih (cleanElem (hasPrefix s "/") out e)
      have := weight_cleanElem (hasPrefix s "/") out e
      have first : weight (e :: l) = e.toList.length + 1 + weight l := by simp [weight]
      rw [List.foldl_cons]
      omega
  have reverse (l : List String) : weight l.reverse = weight l := by simp [weight, List.sum_reverse]
  rw [elements, reverse]
  simpa [weight] using all (split s '/') []

theorem weight_split (s : String) : weight (split s '/') = s.toList.length + 1 := by
  rw [weight, split, List.map_map]
  generalize s.toList = l
  induction l with
  | nil => rfl
  | cons x l ih =>
    rw [splitChars]
    split_ifs
    · simpa [Nat.add_comm] using ih
    · cases parts : splitChars '/' l with
      | nil =>
        rw [parts] at ih
        simp at ih
      | cons w ws =>
        rw [parts] at ih
        simp only [List.map_cons, List.sum_cons, Function.comp_apply, String.toList_ofList, List.length_cons] at ih ⊢
        omega

theorem length_join : ∀ {es : List String}, es ≠ [] → (join "/" es).toList.length + 1 = weight es
  | [e], _ => by simp [join, weight]
  | e :: x :: xs, _ => by
    have := @length_join (x :: xs) (by simp)
    have first : weight (e :: x :: xs) = e.toList.length + 1 + weight (x :: xs) := by simp [weight]
    rw [join_cons (by simp), first, ← this]
    simp
    omega

theorem length_join_elements (s : String) : (join "/" (elements s)).toList.length ≤ s.toList.length := by
  by_cases ne : elements s = []
  · simp [ne, join]
  · have := length_join ne
    have := weight_elements s
    have := weight_split s
    omega

/-! ### Leading directories -/

/-- The elements start with the directories `ds`, and go on below them. -/
def Below (ds es : List String) : Prop := ds <+: es ∧ ds.length < es.length

instance (ds es : List String) : Decidable (Below ds es) := inferInstanceAs (Decidable (_ ∧ _))

def dropDirs (ds es : List String) : List String := if Below ds es then es.drop ds.length else es

section
variable {ds es : List String}

theorem below_iff : Below ds es ↔ ∃ rest, rest ≠ [] ∧ es = ds ++ rest := by
  constructor
  · rintro ⟨⟨rest, rfl⟩, longer⟩
    refine ⟨rest, ?_, rfl⟩
    rintro rfl
    simp at longer
  · rintro ⟨rest, ne, rfl⟩
    refine ⟨List.prefix_append _ _, ?_⟩
    rw [List.length_append]
    have := List.length_pos_of_ne_nil ne
    omega

theorem join_append (h : ds ≠ []) (h' : es ≠ []) : join "/" (ds ++ es) = join "/" ds ++ "/" ++ join "/" es := by
  induction ds with
  | nil => exact absurd rfl h
  | cons d ds ih =>
    cases ds with
    | nil => exact join_cons h'
    | cons x xs =>
      rw [List.cons_append, join_cons (by simp), ih (by simp), @join_cons "/" d (x :: xs) (by simp)]
      simp only [String.append_assoc]

theorem hasPrefix_join_iff (hd : ∀ e ∈ ds, Proper e) (he : ∀ e ∈ es, Proper e) (ne : ds ≠ []) :
    hasPrefix (join "/" es) (join "/" ds ++ "/") = true ↔ Below ds es := by
  rw [hasPrefix_iff, below_iff]
  constructor
  · rintro ⟨t, text⟩
    have whole : join "/" es = .ofList ((join "/" ds).toList ++ '/' :: t) := by
      rw [← String.toList_inj, String.toList_ofList, ← text]
      simp
    have some' : es ≠ [] := by
      rintro rfl
      have := congrArg String.toList whole
      simp [join] at this
    refine ⟨split (.ofList t) '/', by simp [split, splitChars_eq_splitOn], ?_⟩
    rw [← split_join (fun e h => (he e h).plain) some', whole, split, String.toList_ofList, splitChars_append,
      List.map_append]
    have first : (splitChars '/' (join "/" ds).toList).map String.ofList = ds :=
      split_join (fun e h => (hd e h).plain) ne
    rw [first, split, String.toList_ofList]
  · rintro ⟨rest, some', rfl⟩
    rw [join_append ne some']
    exact ⟨(join "/" rest).toList, String.toList_append.symm⟩

theorem trimPrefix_join (hd : ∀ e ∈ ds, Proper e) (he : ∀ e ∈ es, Proper e) (ne : ds ≠ []) :
    trimPrefix (join "/" es) (join "/" ds ++ "/") = join "/" (dropDirs ds es) := by
  unfold dropDirs
  split_ifs with below
  · obtain ⟨rest, some', rfl⟩ := below_iff.mp below
    have text : join "/" (ds ++ rest) = .ofList ((join "/" ds ++ "/").toList ++ (join "/" rest).toList) := by
      rw [join_append ne some', ← String.toList_append, String.ofList_toList]
    rw [text, trimPrefix_append, String.ofList_toList, List.drop_left]
  · refine trimPrefix_of_not ?_
    by_contra has
    exact below ((hasPrefix_join_iff hd he ne).mp (Bool.eq_true_of_not_eq_false has))

theorem dropDirs_subset : ∀ e ∈ dropDirs ds es, e ∈ es := by
  intro e h
  unfold dropDirs at h
  split_ifs at h
  · exact List.mem_of_mem_drop h
  · exact h

theorem dropDirs_suffix (ds es : List String) : dropDirs ds es <:+ es := by
  unfold dropDirs
  split_ifs
  · exact List.drop_suffix _ _
  · exact List.suffix_refl _

theorem dropDirs_ne_nil (h : es ≠ []) : dropDirs ds es ≠ [] := by
  unfold dropDirs
  split_ifs with below
  · exact List.ne_nil_of_length_pos (by rw [List.length_drop]; have := below.2; omega)
  · exact h

theorem dropDirs_eq_self_iff (ne : ds ≠ []) : dropDirs ds es = es ↔ ¬Below ds es := by
  unfold dropDirs
  split_ifs with below
  · refine iff_of_false (fun same => ?_) (not_not.mpr below)
    have same := congrArg List.length same
    rw [List.length_drop] at same
    have := List.length_pos_of_ne_nil ne
    have := below.2
    omega
  · exact iff_of_true rfl below

theorem join_suffix {es' : List String} (suffix : es' <:+ es) : (join "/" es').toList <:+ (join "/" es).toList := by
  obtain ⟨ds, rfl⟩ := suffix
  by_cases ne : ds = []
  · rw [ne, List.nil_append]
  · by_cases ne' : es' = []
    · rw [ne']
      exact List.nil_suffix
    · rw [join_append ne ne', String.toList_append]
      exact List.suffix_append _ _

end

/-! ### Absolute paths -/

/-- Nothing leads up out of the root. -/
theorem proper_of_rooted (rooted : hasPrefix s "/" = true) : ∀ e ∈ elements s, Proper e := by
  obtain ⟨ups, ps, parts, -, proper, top⟩ := (normal_elements s).split
  rwa [parts, top rooted, List.nil_append]

theorem elements_below (named : s ≠ "") {rs : List String} (h : ∀ e ∈ rs, Proper e) (ne : rs ≠ []) :
    elements (s ++ "/" ++ join "/" rs) = elements s ++ rs := by
  rw [elements, hasPrefix_below named, split_below, split_join (fun e he => (h e he).plain) ne, List.foldl_append,
    foldl_cleanElem_proper _ h, List.reverse_append, List.reverse_reverse, elements]

theorem elements_rooted {es : List String} (h : ∀ e ∈ es, Proper e) : elements ("/" ++ join "/" es) = es := by
  by_cases ne : es = []
  · subst ne
    decide
  · exact @elements_render true es (.of_proper h) ne

theorem pathClean_rooted (rooted : hasPrefix s "/" = true) : pathClean s = "/" ++ join "/" (elements s) := by
  rw [pathClean_eq, if_pos rooted]

/-! ### Canonical paths -/

namespace Diff

/-- The path without blanks around it and without the prefixes of git. -/
def unprefixed (raw : String) : String := trimPrefix (trimPrefix (replaceAll (trimSpace raw) '\\' '/') "a/") "b/"

def shop : List String := ["examples", "shop"]

theorem proper_names : ∀ e ∈ ["a", "b", "examples", "shop"], Proper e := by
  intro e he
  simp only [List.mem_cons, List.not_mem_nil, or_false] at he
  rcases he with rfl | rfl | rfl | rfl <;> constructor <;> decide

theorem proper_shop : ∀ e ∈ shop, Proper e :=
  fun e he => proper_names e (List.mem_cons_of_mem _ (List.mem_cons_of_mem _ he))

theorem contains_of_suffix {t sub : String} (suffix : s.toList <:+ t.toList) (h : contains t sub = false) :
    contains s sub = false := by
  by_contra found
  have := (contains_iff.mp (Bool.eq_true_of_not_eq_false found)).trans suffix.isInfix
  rw [contains_iff.mpr this] at h
  exact nomatch h

theorem proper_of_elements (inside : contains (join "/" (elements s)) ".." = false) : ∀ e ∈ elements s, Proper e := by
  intro e he
  obtain ⟨mem, nonempty, notHere⟩ := mem_elements he
  refine ⟨nonempty, notHere, ?_, not_mem_of_mem_split mem⟩
  rintro rfl
  obtain ⟨before, after, parts⟩ := List.append_of_mem he
  have up : ("..").toList <:+: (join "/" (".." :: after)).toList := by
    refine List.IsPrefix.isInfix ?_
    cases after with
    | nil => exact List.prefix_refl _
    | cons x xs =>
      rw [join_cons (by simp), String.append_assoc, String.toList_append]
      exact List.prefix_append _ _
  have whole := contains_of_suffix (join_suffix (parts ▸ List.suffix_append before (".." :: after))) inside
  rw [contains_iff.mpr up] at whole
  exact nomatch whole

theorem contains_rooted (s : String) : contains ("/" ++ s) ".." = contains s ".." := by
  rw [Bool.eq_iff_iff, contains_iff, contains_iff, String.toList_append]
  show ("..").toList <:+: '/' :: s.toList ↔ _
  rw [List.infix_cons_iff]
  refine or_iff_right fun pre => ?_
  obtain ⟨t, ht⟩ := pre
  simp at ht

/-- What `CanonicalPath` does with a cleaned path. -/
def accept (s : String) : Option String :=
  if s = "." ∨ s = "/" ∨ hasPrefix s "../" ∨ contains s "/../" ∨ contains s ".." then none
  else
    let s := trimPrefix (trimPrefix s "/") "examples/shop/"
    if s = "" then none else some s

theorem canonicalPath_eq_accept (raw : String) : canonicalPath raw = accept (pathClean (unprefixed raw)) := rfl

theorem accept_up (up : contains s ".." = true) : accept s = none := by
  rw [accept, if_pos (.inr (.inr (.inr (.inr up))))]

theorem contains_of_contains {sub sub' : String} (h : contains s sub = true) (part : contains sub sub' = true) :
    contains s sub' = true :=
  contains_iff.mpr ((contains_iff.mp part).trans (contains_iff.mp h))

theorem accept_down (here : s ≠ ".") (root : s ≠ "/") (inside : contains s ".." = false) :
    accept s = if trimPrefix (trimPrefix s "/") "examples/shop/" = "" then none
      else some (trimPrefix (trimPrefix s "/") "examples/shop/") := by
  have between : contains s "/../" = false := by
    by_contra found
    rw [contains_of_contains (Bool.eq_true_of_not_eq_false found) (by decide)] at inside
    exact nomatch inside
  have parent : hasPrefix s "../" = false := by
    by_contra found
    have := contains_iff.mpr (hasPrefix_iff.mp (Bool.eq_true_of_not_eq_false found)).isInfix
    rw [contains_of_contains this (by decide)] at inside
    exact nomatch inside
  rw [accept, if_neg (by simp [here, root, between, parent, inside])]

theorem trimPrefix_slash (s : String) : trimPrefix ("/" ++ s) "/" = s := by
  rw [show "/" ++ s = .ofList (("/").toList ++ s.toList) by rw [← String.toList_append, String.ofList_toList],
    trimPrefix_append, String.ofList_toList]

theorem join_ne_empty {es : List String} (h : ∀ e ∈ es, Proper e) (ne : es ≠ []) : join "/" es ≠ "" := fun empty =>
  ne (join_injective h (List.forall_mem_nil _) empty)

theorem join_ne_here {es : List String} (h : ∀ e ∈ es, Proper e) (ne : es ≠ []) : join "/" es ≠ "." := by
  intro same
  have alone := split_join (fun e he => (h e he).plain) ne
  rw [same] at alone
  exact (h "." (by rw [← alone]; decide)).notHere rfl

theorem accept_join {es : List String} (h : ∀ e ∈ es, Proper e) (ne : es ≠ [])
    (inside : contains (join "/" es) ".." = false) :
    accept ("/" ++ join "/" es) = some (join "/" (dropDirs shop es)) ∧
    accept (join "/" es) = some (join "/" (dropDirs shop es)) := by
  have slash := hasPrefix_join h
  have dirs : trimPrefix (join "/" es) "examples/shop/" = join "/" (dropDirs shop es) := by
    rw [show "examples/shop/" = join "/" shop ++ "/" by decide]
    exact trimPrefix_join proper_shop h (by decide)
  have named : join "/" (dropDirs shop es) ≠ "" := join_ne_empty (fun e he => h e (dropDirs_subset e he))
    (dropDirs_ne_nil ne)
  constructor
  · have here : "/" ++ join "/" es ≠ "." := fun same => by simpa using congrArg String.toList same
    have root : "/" ++ join "/" es ≠ "/" := by
      intro same
      have := congrArg String.toList same
      simp only [String.toList_append] at this
      exact join_ne_empty h ne (String.toList_inj.mp (by simpa using this))
    rw [accept_down here root (by rw [contains_rooted, inside]), trimPrefix_slash, dirs, if_neg named]
  · have root : join "/" es ≠ "/" := by
      intro same
      rw [same] at slash
      exact absurd slash (by decide)
    rw [accept_down (join_ne_here h ne) root inside, trimPrefix_of_not slash, dirs, if_neg named]

/-- A canonical path is that of the elements without the prefixes, unless there are none or they lead up. -/
theorem canonicalPath_eq (raw : String) : canonicalPath raw =
    if elements (unprefixed raw) = [] ∨ contains (join "/" (elements (unprefixed raw))) ".." then none
    else some (join "/" (dropDirs shop (elements (unprefixed raw)))) := by
  rw [canonicalPath_eq_accept, pathClean_eq]
  generalize unprefixed raw = u
  by_cases empty : elements u = []
  · have refused : elements u = [] ∨ contains (join "/" (elements u)) ".." = true := .inl empty
    rw [if_pos refused, empty]
    split_ifs <;> decide
  · rw [if_neg empty]
    by_cases up : contains (join "/" (elements u)) ".." = true
    · have refused : elements u = [] ∨ contains (join "/" (elements u)) ".." = true := .inr up
      rw [if_pos refused]
      split_ifs
      · exact accept_up (by rw [contains_rooted, up])
      · exact accept_up up
    · have inside : contains (join "/" (elements u)) ".." = false := by simpa using up
      obtain ⟨rooted, relative⟩ := accept_join (proper_of_elements inside) empty inside
      rw [if_neg (not_or.mpr ⟨empty, up⟩)]
      split_ifs
      · exact rooted
      · exact relative

theorem canonicalPath_of_join {raw : String} {es : List String} (left : unprefixed raw = join "/" es)
    (h : ∀ e ∈ es, Proper e)
    (ne : es ≠ []) (inside : contains (join "/" es) ".." = false) :
    canonicalPath raw = some (join "/" (dropDirs shop es)) := by
  rw [canonicalPath_eq, left, elements_join h, if_neg (by simp [ne, inside])]

/-! ### What a second call does -/

theorem trimSpace_infix (s : String) : (trimSpace s).toList <:+: s.toList := by
  rw [trimSpace, String.toList_ofList, trimBoth]
  have last := (List.dropWhile_suffix isSpace (l := (s.toList.dropWhile isSpace).reverse)).reverse
  rw [List.reverse_reverse] at last
  exact last.isInfix.trans (List.dropWhile_suffix isSpace).isInfix

theorem trimPrefix_suffix (s pre : String) : (trimPrefix s pre).toList <:+ s.toList := by
  rw [trimPrefix]
  split_ifs
  · rw [String.toList_ofList]
    exact List.drop_suffix _ _
  · exact List.suffix_refl _

theorem length_unprefixed (raw : String) : (unprefixed raw).toList.length ≤ (trimSpace raw).toList.length := by
  have b := (trimPrefix_suffix (trimPrefix (replaceAll (trimSpace raw) '\\' '/') "a/") "b/").length_le
  have a := (trimPrefix_suffix (replaceAll (trimSpace raw) '\\' '/') "a/").length_le
  have same : (replaceAll (trimSpace raw) '\\' '/').toList.length =
    (trimSpace raw).toList.length := by simp [replaceAll]
  exact (b.trans a).trans_eq same

theorem not_mem_unprefixed (raw : String) : '\\' ∉ (unprefixed raw).toList := by
  intro mem
  have mem := (trimPrefix_suffix _ _).subset ((trimPrefix_suffix _ _).subset mem)
  rw [replaceAll, String.toList_ofList, List.mem_map] at mem
  obtain ⟨c, -, hc⟩ := mem
  split_ifs at hc with same
  · exact absurd hc (by decide)
  · exact same hc

theorem not_mem_join {es : List String} (slash : c ≠ '/') (h : ∀ e ∈ es, c ∉ e.toList) : c ∉ (join "/" es).toList := by
  induction es with
  | nil => simp [join]
  | cons e es ih =>
    obtain ⟨head, tail⟩ := List.forall_mem_cons.mp h
    by_cases ne : es = []
    · rwa [ne]
    · rw [join_cons ne, String.toList_append, String.toList_append]
      simp [head, slash, ih tail]

theorem mem_of_mem_split {d : Char} (h : e ∈ split s d) (hc : c ∈ e.toList) : c ∈ s.toList := by
  obtain ⟨w, hw, rfl⟩ := List.mem_map.mp h
  exact mem_of_mem_splitChars hw (by rwa [String.toList_ofList] at hc)

/-- A second call leaves the elements as they are. -/
structure Stable (es : List String) : Prop where
  trimmed : trimSpace (join "/" es) = join "/" es
  old : ¬Below ["a"] es
  new : ¬Below ["b"] es
  outsideShop : ¬Below shop es

theorem canonicalPath_join_iff {es : List String} (h : ∀ e ∈ es, Proper e) (ne : es ≠ [])
    (inside : contains (join "/" es) ".." = false)
    (slashes : '\\' ∉ (join "/" es).toList) : canonicalPath (join "/" es) = some (join "/" es) ↔ Stable es := by
  by_cases trimmed : trimSpace (join "/" es) = join "/" es
  · have first : ∀ e ∈ dropDirs ["a"] es, Proper e := fun e he => h e (dropDirs_subset e he)
    have second : ∀ e ∈ dropDirs ["b"] (dropDirs ["a"] es), Proper e := fun e he => first e (dropDirs_subset e he)
    have suffix := (dropDirs_suffix ["b"] (dropDirs ["a"] es)).trans (dropDirs_suffix ["a"] es)
    have left : unprefixed (join "/" es) = join "/" (dropDirs ["b"] (dropDirs ["a"] es)) := by
      have a := @trimPrefix_join ["a"] _ (fun e he => proper_names e (by simp_all)) h (by decide)
      have b := @trimPrefix_join ["b"] _ (fun e he => proper_names e (by simp_all)) first (by decide)
      rw [unprefixed, trimmed, replaceAll_of_not_mem slashes, show "a/" = join "/" ["a"] ++ "/" by decide, a,
        show "b/" = join "/" ["b"] ++ "/" by decide, b]
    rw [canonicalPath_of_join left second (dropDirs_ne_nil (dropDirs_ne_nil ne))
      (contains_of_suffix (join_suffix suffix) inside), Option.some.injEq]
    constructor
    · intro same
      have same := join_injective (fun e he => second e (dropDirs_subset e he)) h same
      have whole := (dropDirs_suffix shop (dropDirs ["b"] (dropDirs ["a"] es))).length_le
      have whole' := (dropDirs_suffix ["b"] (dropDirs ["a"] es)).length_le
      have whole'' := (dropDirs_suffix ["a"] es).length_le
      rw [same] at whole
      have old := (dropDirs_suffix ["a"] es).eq_of_length_le (whole.trans whole')
      rw [old] at whole same
      have new := (dropDirs_suffix ["b"] es).eq_of_length_le whole
      rw [new] at same
      exact ⟨trimmed, (dropDirs_eq_self_iff (by decide)).mp old, (dropDirs_eq_self_iff (by decide)).mp new,
        (dropDirs_eq_self_iff (by decide)).mp same⟩
    · intro stable
      rw [(dropDirs_eq_self_iff (by decide)).mpr stable.old, (dropDirs_eq_self_iff (by decide)).mpr stable.new,
        (dropDirs_eq_self_iff (by decide)).mpr stable.outsideShop]
  · refine iff_of_false (fun same => ?_) fun stable => trimmed stable.trimmed
    -- what is trimmed off does not come back
    rw [canonicalPath_eq] at same
    split_ifs at same
    have result := congrArg (fun s : String => s.toList.length) (Option.some.inj same)
    have dirs := (join_suffix (dropDirs_suffix shop (elements (unprefixed (join "/" es))))).length_le
    have cleaned := length_join_elements (unprefixed (join "/" es))
    have shorter := length_unprefixed (join "/" es)
    have whole := ( trimSpace_infix (join "/" es)).eq_of_length_le (by omega)
    exact trimmed (String.toList_inj.mp whole)

/-- A raw path whose canonical path, if it has one, is canonical for a second call. -/
def Settled (raw : String) : Prop :=
  elements (unprefixed raw) ≠ [] → contains (join "/" (elements (unprefixed raw))) ".." = false →
    Stable (dropDirs shop (elements (unprefixed raw)))

theorem idempotent_iff (raw : String) : (∀ q, canonicalPath raw = some q → canonicalPath q = some q) ↔ Settled raw := by
  have slashes : ∀ e ∈ elements (unprefixed raw), '\\' ∉ e.toList := fun e he hc =>
    not_mem_unprefixed raw (mem_of_mem_split (mem_elements he).1 hc)
  rw [canonicalPath_eq, Settled]
  by_cases refused : elements (unprefixed raw) = [] ∨ contains (join "/" (elements (unprefixed raw))) ".." = true
  · rw [if_pos refused]
    refine iff_of_true nofun fun ne inside => ?_
    rcases refused with empty | up
    · exact absurd empty ne
    · rw [inside] at up
      exact nomatch up
  · rw [if_neg refused]
    obtain ⟨ne, inside⟩ := not_or.mp refused
    have inside : contains (join "/" (elements (unprefixed raw))) ".." = false := by simpa using inside
    have again := canonicalPath_join_iff (fun e he => proper_of_elements inside e (dropDirs_subset e he))
      (dropDirs_ne_nil ne)
      (contains_of_suffix (join_suffix (dropDirs_suffix shop _)) inside)
      (not_mem_join (by decide) fun e he => slashes e (dropDirs_subset e he))
    rw [← again]
    constructor
    · exact fun h _ _ => h _ rfl
    · intro h q same
      rw [← Option.some.inj same]
      exact h ne inside

/-! ### The two sides of a diff -/

/-- A clean relative path without double dots, outside the shop. -/
structure RelativePath (p : String) : Prop where
  chars : ∀ c ∈ p.toList, isSpace c = false ∧ c ≠ '\\'
  clean : pathClean p = p
  relative : hasPrefix p "/" = false
  inside : contains p ".." = false
  outsideShop : hasPrefix p "examples/shop/" = false

theorem unprefixed_old (h : CleanPath p) : unprefixed ("a/" ++ p) = trimPrefix p "b/" := by
  have trimmed : trimSpace ("a/" ++ p) = "a/" ++ p := trimSpace_of_none fun c hc => (h.chars_old c hc).1
  have slashes : replaceAll ("a/" ++ p) '\\' '/' = "a/" ++ p := replaceAll_of_not_mem fun mem =>
    (h.chars_old _ mem).2 rfl
  have spelled : "a/" ++ p = .ofList ("a/".toList ++ p.toList) := by rw [← String.toList_append, String.ofList_toList]
  rw [unprefixed, trimmed, slashes, spelled, trimPrefix_append, String.ofList_toList]

theorem canonicalPath_old_iff (h : CleanPath p) : canonicalPath ("a/" ++ p) = some p ↔ hasPrefix p "b/" = false := by
  have whole := join_elements h.clean h.relative h.proper
  have inside : contains (join "/" (elements p)) ".." = false := by rw [whole, h.inside]
  have proper := proper_of_elements inside
  have ne : elements p ≠ [] := by
    intro empty
    rw [empty] at whole
    exact h.ne_empty whole.symm
  have names : ∀ e ∈ ["b"], Proper e :=
    fun e he => proper_names e (List.mem_cons_of_mem _ (List.mem_of_mem_head? (by simp_all)))
  have left : unprefixed ("a/" ++ p) = join "/" (dropDirs ["b"] (elements p)) := by
    rw [unprefixed_old h]
    conv_lhs => rw [← whole, show "b/" = join "/" ["b"] ++ "/" by decide]
    exact trimPrefix_join names proper (by decide)
  have under : hasPrefix p "b/" = true ↔ Below ["b"] (elements p) := by
    rw [← hasPrefix_join_iff names proper (by decide), whole, show "b/" = join "/" ["b"] ++ "/" by decide]
  have shopFree : ¬Below shop (elements p) := by
    rw [← hasPrefix_join_iff proper_shop proper (by decide), whole,
      show join "/" shop ++ "/" = "examples/shop/" by decide]
    exact ne_true_of_eq_false h.outsideShop
  have suffix := dropDirs_suffix ["b"] (elements p)
  have part : ∀ e ∈ dropDirs ["b"] (elements p), Proper e := fun e he => proper e (dropDirs_subset e he)
  rw [canonicalPath_of_join left part (dropDirs_ne_nil ne) (contains_of_suffix (join_suffix suffix) inside),
    Option.some.injEq, ← Bool.not_eq_true, under]
  constructor
  · intro same
    have same := join_injective (fun e he => part e (dropDirs_subset e he)) proper (same.trans whole.symm)
    have longer := (dropDirs_suffix shop (dropDirs ["b"] (elements p))).length_le
    rw [same] at longer
    exact (dropDirs_eq_self_iff (by decide)).mp (suffix.eq_of_length_le longer)
  · intro apart
    rw [(dropDirs_eq_self_iff (by decide)).mpr apart, (dropDirs_eq_self_iff (by decide)).mpr shopFree, whole]

/-- Both sides of a diff name the same file exactly if it is not under a directory `b`, and a canonical path is
    canonical for a second call exactly if no prefix and no blanks are left on it. -/
theorem canonicalPath_laws (p raw : String) :
    (RelativePath p →
      ((canonicalPath ("a/" ++ p) = some p ∧ canonicalPath ("b/" ++ p) = some p) ↔ p ≠ "." ∧
        hasPrefix p "b/" = false)) ∧
    ((∀ q, canonicalPath raw = some q → canonicalPath q = some q) ↔ Settled raw) := by
  refine ⟨fun h => ?_, idempotent_iff raw⟩
  by_cases proper : p = "."
  · subst proper
    exact iff_of_false (fun both => absurd both.1 (by decide)) fun both => both.1 rfl
  · have clean : CleanPath p := ⟨h.chars, h.clean, h.relative, proper, h.inside, h.outsideShop⟩
    rw [canonicalPath_old_iff clean]
    exact ⟨fun both => ⟨proper, both.1⟩, fun both => ⟨both.2, clean.canonicalPath_new⟩⟩

theorem relativePath_of_decide (chars : (p.toList.all fun c => !isSpace c && c ≠ '\\') = true) (clean : pathClean p = p)
    (relative : hasPrefix p "/" = false) (inside : contains p ".." = false)
    (outsideShop : hasPrefix p "examples/shop/" = false) :
    RelativePath p where
  chars c hc := by simpa using List.all_eq_true.mp chars c hc
  clean := clean
  relative := relative
  inside := inside
  outsideShop := outsideShop

theorem canonicalPath_laws_parse :
    canonicalPath ("a/" ++ "internal/diff/parse.go") = some "internal/diff/parse.go" ∧
      canonicalPath ("b/" ++ "internal/diff/parse.go") = some "internal/diff/parse.go" :=
  ((canonicalPath_laws "internal/diff/parse.go" "").1
    (relativePath_of_decide (by decide) (by decide) (by decide) (by decide) (by decide))).mpr ⟨by decide, by decide⟩

/-- Under a directory `b` the two sides get two names, and a path under a directory `a` has a canonical path that has
    another one. -/
theorem canonicalPath_prefix_twice :
    RelativePath "b/x.go" ∧ canonicalPath ("a/" ++ "b/x.go") = some "x.go" ∧
    canonicalPath ("b/" ++ "b/x.go") = some "b/x.go" ∧
      canonicalPath "a/a/x.go" = some "a/x.go" ∧ canonicalPath "a/x.go" = some "x.go" :=
  ⟨relativePath_of_decide (by decide) (by decide) (by decide) (by decide)
    (by decide), by decide, by decide, by decide, by decide⟩

end Diff
end Aquila

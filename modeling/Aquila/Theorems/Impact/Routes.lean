import Aquila.Analyze
import Aquila.Theorems.Text

/-! The label of an entry route, and what `RuntimeRoutes` reads back from it. -/

namespace Aquila

/-! ### Upper case -/

/-- The upper case of a character. -/
def Lib.upper (lib : Lib) (c : Char) : Char := if c.toNat < 128 then asciiUpper c else lib.upperRune c

/-- What is taken from `unicode.ToUpper`: it makes no blanks and no question marks of other characters, and it leaves
    upper case letters. -/
structure Lib.Uppercase (lib : Lib) : Prop where
  blanks : ∀ c : Char, 128 ≤ c.toNat → isSpace c = false → isSpace (lib.upperRune c) = false
  marks : ∀ c : Char, 128 ≤ c.toNat → lib.upperRune c ≠ '?'
  stays : ∀ c : Char, 128 ≤ c.toNat → lib.upper (lib.upperRune c) = lib.upperRune c

theorem toList_toUpper (lib : Lib) (s : String) : (lib.toUpper s).toList = s.toList.map lib.upper := by
  rw [Lib.toUpper, String.toList_ofList]
  rfl

theorem asciiUpper_spec (c : Char) (ascii : c.toNat < 128) :
    (isSpace c = false → isSpace (asciiUpper c) = false) ∧ (asciiUpper c = '?' → c = '?') ∧
      (asciiUpper c).toNat < 128 ∧ asciiUpper (asciiUpper c) = asciiUpper c := by
  have all : ∀ n < 128, (isSpace (Char.ofNat n) = false → isSpace (asciiUpper (Char.ofNat n)) = false) ∧
      (asciiUpper (Char.ofNat n) = '?' → Char.ofNat n = '?') ∧
      (asciiUpper (Char.ofNat n)).toNat < 128 ∧ asciiUpper (asciiUpper (Char.ofNat n)) = asciiUpper (Char.ofNat n) := by
    decide +kernel
  have here := all c.toNat ascii
  rwa [Char.ofNat_toNat] at here

namespace Lib.Uppercase
variable {lib : Lib} (std : lib.Uppercase)
include std

theorem isSpace_upper {c : Char} (h : isSpace c = false) : isSpace (lib.upper c) = false := by
  unfold Lib.upper
  split_ifs with ascii
  · exact (asciiUpper_spec c ascii).1 h
  · exact std.blanks c (not_lt.mp ascii) h

theorem upper_ne_mark {c : Char} (h : c ≠ '?') : lib.upper c ≠ '?' := by
  unfold Lib.upper
  split_ifs with ascii
  · exact fun same => h ((asciiUpper_spec c ascii).2.1 same)
  · exact std.marks c (not_lt.mp ascii)

theorem upper_upper (c : Char) : lib.upper (lib.upper c) = lib.upper c := by
  by_cases ascii : c.toNat < 128
  · obtain ⟨_, _, small, stays⟩ := asciiUpper_spec c ascii
    have here : lib.upper c = asciiUpper c := if_pos ascii
    rw [here, Lib.upper, if_pos small, stays]
  · have here : lib.upper c = lib.upperRune c := if_neg ascii
    rw [here]
    exact std.stays c (not_lt.mp ascii)

end Lib.Uppercase

namespace Impact
variable {lib : Lib}

/-! ### Labels -/

/-- Texts that neither start nor end with a blank. -/
structure Trimmed (l : List Char) : Prop where
  first : ∀ c, l.head? = some c → isSpace c = false
  last : ∀ c, l.getLast? = some c → isSpace c = false

theorem trimmed_trimSpace (s : String) : Trimmed (trimSpace s).toList := by
  rw [trimSpace, String.toList_ofList]
  exact ⟨fun _ => head_trimBoth, fun _ => getLast_trimBoth⟩

theorem Trimmed.trimSpace {l : List Char} (h : Trimmed l) : trimSpace (.ofList l) = .ofList l := by
  rw [Aquila.trimSpace, String.toList_ofList, trimBoth_of_ends h.first h.last]

theorem Trimmed.map_upper (std : lib.Uppercase) {l : List Char} (h : Trimmed l) : Trimmed (l.map lib.upper) := by
  constructor
  · intro c hc
    rw [List.head?_map, Option.map_eq_some_iff] at hc
    obtain ⟨d, hd, rfl⟩ := hc
    exact std.isSpace_upper (h.first d hd)
  · intro c hc
    rw [List.getLast?_map, Option.map_eq_some_iff] at hc
    obtain ⟨d, hd, rfl⟩ := hc
    exact std.isSpace_upper (h.last d hd)

theorem Trimmed.append {l l' : List Char} (h : Trimmed l) (h' : Trimmed l') (ne : l ≠ []) (ne' : l' ≠ [])
    (mid : List Char) :
    Trimmed (l ++ mid ++ l') := by
  constructor
  · intro c hc
    rw [List.append_assoc, List.head?_append_of_ne_nil _ ne] at hc
    exact h.first c hc
  · intro c hc
    rw [List.getLast?_append_of_ne_nil _ ne'] at hc
    exact h'.last c hc

/-- The characters of the method and of the path of a label. -/
structure Label (lib : Lib) (method path : List Char) : Prop where
  named : method ≠ []
  trimmed : Trimmed method
  upper : method.map lib.upper = method
  rooted : path.head? = some '/'
  ended : Trimmed path
  query : '?' ∉ path

theorem label_of_route (std : lib.Uppercase) {method route : String} (trimmed : trimSpace route = route)
    (query : '?' ∉ route.toList) (named : routeLabel lib method route ≠ "") :
    ∃ path, Label lib ((trimSpace method).toList.map lib.upper) path ∧
      routeLabel lib method route = .ofList ((trimSpace method).toList.map lib.upper ++ ' ' :: path) := by
  have upper : ((trimSpace method).toList.map lib.upper).map lib.upper = (trimSpace method).toList.map lib.upper := by
    rw [List.map_map]
    exact List.map_congr_left fun c _ => std.upper_upper c
  have ends : Trimmed route.toList := trimmed ▸ trimmed_trimSpace route
  unfold routeLabel at named ⊢
  rw [trimmed, cutBefore_of_not_mem query] at named ⊢
  dsimp only at named ⊢
  split_ifs at named ⊢ with empty rooted
  · exact absurd rfl named
  all_goals
    obtain ⟨method_ne, route_ne⟩ := not_or.mp empty
    have letters : (trimSpace method).toList.map lib.upper ≠ [] := by
      rw [← toList_toUpper]
      exact fun nil => method_ne (String.toList_eq_nil_iff.mp nil)
  · refine ⟨route.toList, ⟨letters, (trimmed_trimSpace method).map_upper std, upper, ?_, ends, query⟩, ?_⟩
    · obtain ⟨rest, split⟩ := hasPrefix_iff.mp rooted
      rw [← split]
      simp
    · rw [← String.toList_inj]
      simp [toList_toUpper]
  · refine ⟨'/' :: route.toList, ⟨letters, (trimmed_trimSpace method).map_upper std, upper, rfl, ?_, ?_⟩, ?_⟩
    · have slash : Trimmed ['/'] := ⟨by simp; decide, by simp; decide⟩
      have nonempty : route.toList ≠ [] := fun nil => route_ne (String.toList_eq_nil_iff.mp nil)
      exact slash.append ends (by simp) nonempty []
    · exact fun h => (List.mem_cons.mp h).elim (by decide) query
    · rw [← String.toList_inj]
      simp [toList_toUpper]

theorem cutBefore_rooted {s : String} (h : hasPrefix s "/" = true) : hasPrefix (cutBefore s '?') "/" = true := by
  obtain ⟨rest, split⟩ := hasPrefix_iff.mp h
  rw [hasPrefix_iff, cutBefore, ← split, String.toList_ofList]
  simp

theorem runtimeLabel_split {x : Finding} {before after : List Char} (whole : Trimmed (before ++ ' ' :: after))
    (blank : ' ' ∉ before) (route : x.route = .ofList (before ++ ' ' :: after)) {r : String}
    (read : runtimeLabel lib x = some r) :
    contains (cutBefore (trimSpace (.ofList after)) '?') " " = false ∧
      r = lib.toUpper (trimSpace (.ofList before)) ++ " " ++ cutBefore (trimSpace (.ofList after)) '?' := by
  have raw : trimSpace x.route = x.route := by rw [route, whole.trimSpace]
  have nonempty : x.route ≠ "" := by
    rw [route]
    intro nil
    have := congrArg String.toList nil
    simp at this
  unfold runtimeLabel at read
  rw [raw, if_neg nonempty] at read
  dsimp only at read
  unfold splitRoute at read
  rw [raw, route, splitN2_append blank] at read
  dsimp only at read
  by_cases rooted : hasPrefix (trimSpace (.ofList after)) "/" = true
  · rw [rooted, cutBefore_rooted rooted] at read
    simp only [Bool.not_true, Bool.false_eq_true, if_false, if_true] at read
    split at read
    · rename_i method path split
      split_ifs at split
      obtain ⟨rfl, rfl⟩ := Prod.mk.inj (Option.some.inj split)
      split_ifs at read with shape
      exact ⟨by simpa using (Bool.and_eq_true_iff.mp shape).2, (Option.some.inj read).symm⟩
    · exact nomatch read
  · rw [Bool.eq_false_of_not_eq_true rooted] at read
    exact nomatch read

theorem trimSpace_of_blank {l l' : List Char} {c : Char} (last : l.getLast? = some c) (solid : isSpace c = false)
    (ended : Trimmed l') (ne : l' ≠ []) :
    ∃ rest, trimSpace (.ofList (l ++ ' ' :: l')) = .ofList (rest ++ ' ' :: l') ∧ rest <:+ l := by
  refine ⟨l.dropWhile isSpace, ?_, List.dropWhile_suffix _⟩
  have rest : (l.dropWhile isSpace).isEmpty = false := by
    rw [List.isEmpty_eq_false_iff, Ne, List.dropWhile_eq_nil_iff]
    exact fun all => Bool.false_ne_true (solid.symm.trans (all c (List.mem_of_getLast? last)))
  have drop : (l ++ ' ' :: l').dropWhile isSpace = l.dropWhile isSpace ++ ' ' :: l' := by
    rw [List.dropWhile_append, rest, if_neg Bool.false_ne_true]
  have ends : Trimmed (l.dropWhile isSpace ++ ' ' :: l') := by
    constructor
    · intro d hd
      exact head_dropWhile (drop ▸ hd)
    · intro d hd
      rw [List.getLast?_append_of_ne_nil _ (by simp), List.getLast?_cons_of_ne_nil ne] at hd
      exact ended.last d hd
  rw [← ends.trimSpace, trimSpace, trimSpace, String.toList_ofList, String.toList_ofList, trimBoth, trimBoth, drop,
    dropWhile_of_head ends.first]

/-- A label without a question mark in its method is read back as it is, if it is read at all. -/
theorem runtimeLabel_of_label {method path : List Char} (label : Label lib method path) (mark : '?' ∉ method)
    {x : Finding} (route : x.route = .ofList (method ++ ' ' :: path)) {r : String}
    (read : runtimeLabel lib x = some r) :
    r = x.route := by
  have path_ne : path ≠ [] := fun nil => by simpa [nil] using label.rooted
  have whole : Trimmed (method ++ ' ' :: path) := by
    simpa using label.trimmed.append label.ended label.named path_ne [' ']
  by_cases blank : ' ' ∈ method
  · -- The path that is read has a blank in it.
    obtain ⟨before, after, rfl, fresh⟩ := List.eq_append_cons_of_mem blank
    have after_ne : after ≠ [] := by
      rintro rfl
      exact absurd (label.trimmed.last ' ' (by simp)) (by decide)
    obtain ⟨c, last⟩ := Option.ne_none_iff_exists'.mp (mt List.getLast?_eq_none_iff.mp after_ne)
    have solid : isSpace c = false := label.trimmed.last c (by
      rw [List.getLast?_append_of_ne_nil _ (by simp), List.getLast?_cons_of_ne_nil after_ne, last])
    obtain ⟨rest, trimmed, suffix⟩ := trimSpace_of_blank last solid label.ended path_ne
    rw [List.append_assoc, List.cons_append] at whole route
    obtain ⟨clear, _⟩ := runtimeLabel_split whole fresh route read
    have query : '?' ∉ rest ++ ' ' :: path := by
      intro h
      rcases List.mem_append.mp h with h | h
      · exact mark (List.mem_append_right _ (List.mem_cons_of_mem _ (suffix.subset h)))
      · exact (List.mem_cons.mp h).elim (by decide) label.query
    rw [trimmed, cutBefore_of_not_mem (by rwa [String.toList_ofList])] at clear
    have found : contains (.ofList (rest ++ ' ' :: path)) " " = true := by
      rw [contains_iff, String.toList_ofList]
      exact ⟨rest, path, by simp⟩
    exact absurd (found.symm.trans clear) (by decide)
  · obtain ⟨_, rfl⟩ := runtimeLabel_split whole blank route read
    have method_eq : lib.toUpper (.ofList method) = .ofList method := by
      rw [← String.toList_inj, toList_toUpper, String.toList_ofList, label.upper]
    rw [label.trimmed.trimSpace, label.ended.trimSpace, method_eq,
      cutBefore_of_not_mem (by rw [String.toList_ofList]; exact label.query), route, ← String.toList_inj]
    simp

end Impact

end Aquila

import Aquila.Lib.Files

/-! A new directory that is filled with files and removed with all that is in it. Below it there is no link, so that
    the names of a path are its location. -/

namespace Files
variable {α : Type}

/-! ### Calls -/

namespace Tree

theorem lookup_filter_below {entries : List (Loc × Entry α)} {loc : Loc} (ne : loc ≠ []) (l : Loc) :
    lookup (entries.filter fun e => ¬loc <+: e.1) l = if loc <+: l then none else lookup entries l := by
  by_cases below : loc <+: l
  · have inner : l ≠ [] := by
      rintro rfl
      exact ne (List.prefix_nil.mp below)
    rw [if_pos below, lookup, if_neg inner, Option.map_eq_none_iff, Keyed.get_eq_none_iff]
    simpa using fun _ _ => below
  · rw [if_neg below, lookup, lookup]
    congr 2
    rw [Keyed.get, Keyed.get, List.find?_filter]
    congr 1
    funext x
    by_cases h : x.1 = l <;> simp [h, below]

theorem nested_prune {t : Tree α} {loc : Loc} (ne : loc ≠ []) (l : Loc) (n : String) (e : Entry α)
    (h : lookup (t.entries.filter fun e => ¬loc <+: e.1) (l ++ [n]) = some e) :
    lookup (t.entries.filter fun e => ¬loc <+: e.1) l = some .dir := by
  rw [lookup_filter_below ne] at h ⊢
  by_cases below : loc <+: l ++ [n]
  · rw [if_pos below] at h
    cases h
  · rw [if_neg below] at h
    rw [if_neg fun above => below (above.trans (List.prefix_append _ _))]
    exact t.nested l n e h

/-- Without an entry and all below it. -/
def prune (t : Tree α) (loc : Loc) : Tree α :=
  if ne : loc ≠ [] then ⟨t.entries.filter fun e => ¬loc <+: e.1, nested_prune ne⟩ else t

theorem get_prune {t : Tree α} {loc : Loc} (ne : loc ≠ []) (l : Loc) : (t.prune loc).get l = if loc <+: l then none
    else t.get l := by
  rw [prune, dif_pos ne]
  exact lookup_filter_below ne l

end Tree

def removeAll (d : Disk α) (names : List String) : Disk α :=
  match resolve d.tree false names with
  | .error _ => d
  | .ok loc => { tree := d.tree.prune loc, touched := d.touched ++ [loc] }

def create (d : Disk α) (names : List String) (data : α) : Except Errno Loc × Disk α :=
  match resolve d.tree false names with
  | .error e => (.error e, d)
  | .ok loc => if (d.tree.get loc).isSome then (.error .occupied, d) else (.ok loc, d.put loc (.file data))

def modify (d : Disk α) (loc : Loc) (f : α → α) : Disk α :=
  match d.tree.get loc with
  | some (.file data) => d.put loc (.file (f data))
  | _ => d

/-! ### More entries -/

/-- All entries are still there. -/
def Kept (t t' : Tree α) : Prop := ∀ l e, t.get l = some e → t'.get l = some e

section
variable {t t' t'' : Tree α} {d d' : Disk α} {loc : Loc} {names ns : List String} {n : String}
  {follow : Bool} {e : Errno}

theorem Kept.refl (t : Tree α) : Kept t t := fun _ _ h => h

theorem Kept.trans (h : Kept t t') (h' : Kept t' t'') : Kept t t'' := fun l e found => h' l e (h l e found)

theorem Kept.absent (h : Kept t t') {l : Loc} (missing : t'.get l = none) : t.get l = none := by
  cases found : t.get l with
  | none => rfl
  | some e =>
    rw [h l e found] at missing
    cases missing

theorem Kept.put (h : Kept t t') (room : t'.Room loc) (new : t.get loc = none) (e : Entry α) :
    Kept t (t'.put loc e) := by
  intro l e' found
  rw [Tree.get_put room, if_neg, h l e' found]
  rintro rfl
  rw [new] at found
  cases found

theorem dir_above {e : Entry α} {l rest : List String} (h : t.get (loc ++ (l ++ rest)) = some e) (ne : rest ≠ []) :
    t.get (loc ++ l) = some .dir := by
  induction rest using List.reverseRecOn generalizing e with
  | nil => exact absurd rfl ne
  | append_singleton rest n ih =>
    have parent : t.get (loc ++ (l ++ rest)) = some .dir := by
      refine @Tree.get_of_child _ t _ n e ?_
      simpa using h
    by_cases last : rest = []
    · rwa [last, List.append_nil] at parent
    · exact ih parent last

/-! ### New entries -/

theorem room_of_missing (way : resolve t follow names = .ok loc) (missing : t.get loc = none) : t.Room loc := by
  refine ⟨?_, Tree.isDir_iff.mpr (resolve_spec way).1, by rw [Tree.isDir, missing, Option.any_none]⟩
  rintro rfl
  cases missing

theorem mkdir_ok (h : mkdir d names = (.ok (), d')) :
    ∃ loc, resolve d.tree false names = .ok loc ∧ d.tree.get loc = none ∧ d.tree.Room loc ∧ d' = d.put loc .dir := by
  rw [mkdir] at h
  cases way : resolve d.tree false names with
  | error e => simp [way] at h
  | ok loc =>
    rw [way] at h
    dsimp only at h
    split_ifs at h with taken
    · simp at h
    · have missing : d.tree.get loc = none := by simpa using taken
      exact ⟨loc, rfl, missing, room_of_missing way missing, (Prod.mk.inj h).2.symm⟩

theorem create_ok {data : α} (h : create d names data = (.ok loc, d')) :
    resolve d.tree false names = .ok loc ∧ d.tree.get loc = none ∧ d.tree.Room loc ∧ d' = d.put loc (.file data) := by
  rw [create] at h
  cases way : resolve d.tree false names with
  | error e => simp [way] at h
  | ok found =>
    rw [way] at h
    dsimp only at h
    split_ifs at h with taken
    · simp at h
    · have missing : d.tree.get found = none := by simpa using taken
      obtain ⟨same, after⟩ := Prod.mk.inj h
      obtain rfl := Except.ok.inj same
      exact ⟨rfl, missing, room_of_missing way missing, after.symm⟩

theorem create_error {data : α} (h : create d names data = (.error e, d')) : d' = d := by
  rw [create] at h
  cases way : resolve d.tree false names with
  | error e =>
    rw [way] at h
    exact (Prod.mk.inj h).2.symm
  | ok loc =>
    rw [way] at h
    dsimp only at h
    split_ifs at h
    · exact (Prod.mk.inj h).2.symm
    · simp at h

theorem create_of_dirAt (plain : Plain n) (parent : dirAt d.tree ns = some loc)
    (free : d.tree.get (loc ++ [n]) = none) (data : α) :
    create d (ns ++ [n]) data = (.ok (loc ++ [n]), d.put (loc ++ [n]) (.file data)) := by
  rw [create, resolve_of_dirAt plain parent]
  simp only [free, Option.isSome_none, Bool.false_eq_true, if_false]

theorem mkdir_error (h : mkdir d names = (.error e, d')) : d' = d := by
  rw [mkdir] at h
  cases way : resolve d.tree false names with
  | error e =>
    rw [way] at h
    exact (Prod.mk.inj h).2.symm
  | ok loc =>
    rw [way] at h
    dsimp only at h
    split_ifs at h
    · exact (Prod.mk.inj h).2.symm
    · simp at h

theorem lstat_of_absent (way : resolve t false names = .ok loc) (missing : t.get loc = none) :
    lstat t names = .error .noEntry := by
  rw [lstat, way]
  simp only [missing]

theorem kept_mkdir : Kept d.tree (mkdir d names).2.tree := by
  cases run : mkdir d names with
  | mk r d' =>
    cases r with
    | error e =>
      rw [mkdir_error run]
      exact .refl _
    | ok u =>
      obtain ⟨loc, -, missing, room, rfl⟩ := mkdir_ok run
      exact (Kept.refl _).put room missing .dir

theorem kept_mkdirAll (d : Disk α) (slash : Bool) (rev : List String) : Kept d.tree (mkdirAll d slash rev).2.tree := by
  induction rev generalizing slash with
  | nil => exact .refl _
  | cons n up ih =>
    rw [mkdirAll]
    split
    · exact .refl _
    · split_ifs
      · exact .refl _
      · cases above : mkdirAll d true up with
        | mk r d' =>
          have upper := ih true
          rw [above] at upper
          cases r with
          | error e => exact upper
          | ok u =>
            refine upper.trans ?_
            have last := @kept_mkdir _ d' (n :: up).reverse
            dsimp only
            rw [mkdirLast]
            cases run : mkdir d' (n :: up).reverse with
            | mk r' d'' =>
              rw [run] at last
              cases r' with
              | ok u => exact last
              | error e =>
                dsimp only
                split
                · exact last
                · exact last

theorem get_modify {x : α} (file : d.tree.get loc = some (.file x)) (f : α → α) (l : Loc) :
    (modify d loc f).tree.get l = if l = loc then some (.file (f x)) else d.tree.get l := by
  rw [modify, file]
  exact Tree.get_put (room_of_file file) _ l

theorem get_of_not_plain (stays : ¬Plain n) (h : resolve t follow (ns ++ [n]) = .ok loc) : t.get loc = some .dir := by
  have one {jump : Loc → List String → Except Errno Loc}
      (jumps : ∀ here ns, t.get here = some .dir → jump here (ns ++ [n]) = .ok loc → t.get loc = some .dir) :
      ∀ {ns : List String} {here : Loc}, t.get here = some .dir → steps t follow jump here (ns ++ [n]) = .ok loc →
        t.get loc = some .dir := by
    intro ns
    induction ns with
    | nil =>
      intro here dir h
      rw [List.nil_append, steps] at h
      by_cases stay : n = "" ∨ n = "."
      · rw [if_pos stay, steps] at h
        cases h
        exact dir
      · rw [if_neg stay] at h
        by_cases up : n = ".."
        · rw [if_pos up, steps] at h
          cases h
          exact Tree.get_dropLast dir
        · exact absurd ⟨fun same => stay (.inl same), fun same => stay (.inr same), up⟩ stays
    | cons m ns ih =>
      intro here dir h
      have more : ns ++ [n] ≠ [] := by simp
      rw [List.cons_append, steps] at h
      by_cases stay : m = "" ∨ m = "."
      · rw [if_pos stay] at h
        exact ih dir h
      · rw [if_neg stay] at h
        by_cases up : m = ".."
        · rw [if_pos up] at h
          exact ih (Tree.get_dropLast dir) h
        · rw [if_neg up] at h
          cases entry : t.get (here ++ [m]) with
          | none => simp [entry] at h
          | some e =>
            rw [entry] at h
            cases e with
            | file data => simp at h
            | dir => exact ih entry h
            | link rooted target =>
              dsimp only at h
              rw [if_neg (fun both => more both.1), ← List.append_assoc] at h
              refine jumps _ _ ?_ h
              split_ifs
              · exact Tree.get_root
              · exact dir
  have all : ∀ (k : Nat) (here : Loc) (ns : List String), t.get here = some .dir →
    walk t follow k here (ns ++ [n]) = .ok loc →
      t.get loc = some .dir := by
    intro k
    induction k with
    | zero => exact fun here ns dir h => one (fun _ _ _ h => by cases h) dir h
    | succ k ih => exact fun here ns dir h => one ih dir h
  exact all maxLinks [] ns Tree.get_root h

/-! ### The working directory -/

/-- A location leads to itself, and on from there. -/
theorem steps_loc {jump : Loc → List String → Except Errno Loc} (plain : ∀ n ∈ loc, Plain n)
    {here : Loc} (dir : t.get (here ++ loc) = some .dir) (ns : List String) :
    steps t follow jump here (loc ++ ns) = steps t follow jump (here ++ loc) ns := by
  induction loc generalizing here with
  | nil => rw [List.nil_append, List.append_nil]
  | cons n loc ih =>
    obtain ⟨first, rest⟩ := List.forall_mem_cons.mp plain
    have split : here ++ n :: loc = here ++ [n] ++ loc := by simp
    have next : t.get (here ++ [n]) = some .dir := by
      by_cases last : loc = []
      · rwa [last] at dir
      · exact @dir_above _ t here _ [n] loc dir last
    rw [split] at dir ⊢
    rw [List.cons_append, steps, if_neg (not_or.mpr ⟨first.nonempty, first.notHere⟩), if_neg first.notUp, next]
    exact ih rest dir

theorem resolve_loc (plain : ∀ n ∈ loc, Plain n) (dir : t.get loc = some .dir) : resolve t follow loc = .ok loc := by
  have whole := @steps_loc _ t loc follow (walk t follow 39) plain [] (by rwa [List.nil_append]) []
  rw [List.append_nil, List.nil_append, steps] at whole
  exact whole

theorem dirAt_ups (plain : ∀ n ∈ loc, Plain n) (dir : t.get loc = some .dir) {ups : List String}
    (up : ∀ n ∈ ups, n = "..") : ∃ here, dirAt t (loc ++ ups) = some here ∧ t.get here = some .dir ∧ here <+: loc := by
  have climb {jump : Loc → List String → Except Errno Loc} : ∀ {ups : List String} {loc : Loc}, t.get loc = some .dir →
      (∀ n ∈ ups, n = "..") → ∃ here, steps t true jump loc ups = .ok here ∧ t.get here = some .dir ∧ here <+: loc := by
    intro ups
    induction ups with
    | nil => exact fun dir _ => ⟨_, rfl, dir, List.prefix_refl _⟩
    | cons n ups ih =>
      intro loc dir up
      obtain ⟨rfl, rest⟩ := List.forall_mem_cons.mp up
      obtain ⟨here, way, found, above⟩ := ih (Tree.get_dropLast dir) rest
      refine ⟨here, ?_, found, above.trans (List.dropLast_prefix _)⟩
      rw [steps, if_neg (by decide), if_pos rfl, way]
  obtain ⟨here, way, found, above⟩ := @climb (walk t true 39) ups loc dir up
  refine ⟨here, dirAt_eq_some.mpr ⟨?_, found⟩, found, above⟩
  rw [resolve, maxLinks, walk, steps_loc plain (by rwa [List.nil_append]), List.nil_append, way]

end

/-! ### A new directory -/

section
variable {t : Tree α} {loc : Loc} {d d' : Disk α} {ns ds : List String} {n : String}

theorem dirAt_below (straight : ∀ l, l <+: ds → ∀ rooted target, t.get (loc ++ l) ≠ some (.link rooted target))
    (start : dirAt t ns = some loc) (plain : ∀ n ∈ ds, Plain n) {l : Loc} (h : dirAt t (ns ++ ds) = some l) :
    l = loc ++ ds := by
  induction ds using List.reverseRecOn generalizing l with
  | nil =>
    rw [List.append_nil] at h ⊢
    exact Option.some.inj (h.symm.trans start)
  | append_singleton ds n ih =>
    have name : Plain n := plain n (by simp)
    have above : ∀ m ∈ ds, Plain m := fun m hm => plain m (by simp [hm])
    rw [← List.append_assoc] at h
    cases parent : dirAt t (ns ++ ds) with
    | none =>
      obtain ⟨e, lost⟩ := resolve_of_not_dirAt name parent true
      rw [(dirAt_eq_some.mp h).1] at lost
      cases lost
    | some l' =>
      obtain rfl := ih (fun l hl => straight l (hl.trans (List.prefix_append _ _))) above parent
      have way := resolve_of_dirAt name parent
      rw [List.append_assoc loc] at way
      have followed : resolve t true (ns ++ ds ++ [n]) = .ok (loc ++ (ds ++ [n])) :=
        walk_follow way (straight _ List.prefix_rfl)
      exact Except.ok.inj ((dirAt_eq_some.mp h).1.symm.trans followed)

theorem home_below (straight : ∀ l, l <+: ds → ∀ rooted target, t.get (loc ++ l) ≠ some (.link rooted target))
    (start : dirAt t ns = some loc) (plain : ∀ n ∈ ds, Plain n) :
    ∃ above below, ds = above ++ below ∧ home t (ns ++ ds).reverse = (loc ++ above, below) := by
  induction ds using List.reverseRecOn with
  | nil => exact ⟨[], [], rfl, by
      rw [@home_of_dirAt _ t loc _ (by simpa using start), List.append_nil]⟩
  | append_singleton ds n ih =>
    obtain ⟨above, below, split, deepest⟩ :=
      ih (fun l hl => straight l (hl.trans (List.prefix_append _ _))) fun m hm => plain m (by simp [hm])
    cases found : dirAt t (ns ++ (ds ++ [n])) with
    | some l =>
      obtain rfl := dirAt_below straight start plain found
      exact ⟨ds ++ [n], [], by simp, home_of_dirAt (by rwa [List.reverse_reverse])⟩
    | none =>
      have last : (ns ++ (ds ++ [n])).reverse = n :: (ns ++ ds).reverse := by simp
      refine ⟨above, below ++ [n], by simp [split], ?_⟩
      rw [last, home, ← last, List.reverse_reverse, found, deepest]

theorem mkdirAll_append (d : Disk α) {here above : Loc} {below : List String} (start : dirAt d.tree ns = some here)
    (plain : ∀ n ∈ ds, Plain n) (deepest : home d.tree (ns ++ ds).reverse = (above, below)) (slash : Bool) :
    (Free d.tree above below → mkdirAll d slash (ns ++ ds).reverse = (.ok (), grow d above below) ∧
      dirAt (grow d above below).tree (ns ++ ds) = some (above ++ below)) ∧
      (¬Free d.tree above below → ∃ e, mkdirAll d slash (ns ++ ds).reverse = (.error e, d)) := by
  have spec := @mkdirAll_below _ d ns.reverse here (by rwa [List.reverse_reverse]) ds.reverse
    (fun n hn => plain n (List.mem_reverse.mp hn)) slash
  rw [← List.reverse_append, deepest, List.reverse_reverse] at spec
  exact spec

theorem dirAt_of_mkdirAll {base ps : List String} {here : Loc} (start : dirAt d.tree base = some here)
    (plain : ∀ n ∈ ps, Plain n)
    {slash : Bool} (made : mkdirAll d slash (base ++ ps).reverse = (.ok (), d')) :
    ∃ loc, dirAt d'.tree (base ++ ps) = some loc ∧ (dirAt d.tree (base ++ ps) = some loc ∨ d.tree.get loc = none) := by
  obtain ⟨above, below, deepest⟩ : ∃ above below, home d.tree (base ++ ps).reverse = (above, below) := ⟨_, _, rfl⟩
  obtain ⟨makes, refuses⟩ := mkdirAll_append d start plain deepest slash
  by_cases free : Free d.tree above below
  · obtain ⟨done, found⟩ := makes free
    rw [made] at done
    obtain rfl := (Prod.mk.inj done).2
    refine ⟨_, found, ?_⟩
    cases below with
    | nil =>
      have old := @dirAt_home _ d.tree (base ++ ps).reverse (by rw [deepest])
      rw [List.reverse_reverse, deepest] at old
      exact .inl (by rwa [List.append_nil])
    | cons m rest =>
      have vacant := absent_below (free m rfl) rest
      rw [List.append_assoc, List.singleton_append] at vacant
      exact .inr vacant
  · obtain ⟨e, failed⟩ := refuses free
    rw [made] at failed
    cases failed

theorem not_free_below (plain : ∀ n ∈ ds, Plain n) (taken : ¬Free t (home t ns.reverse).1 (home t ns.reverse).2) :
    ¬Free t (home t (ns ++ ds).reverse).1 (home t (ns ++ ds).reverse).2 := by
  induction ds using List.reverseRecOn with
  | nil => rwa [List.append_nil]
  | append_singleton ds n ih =>
    have above := ih fun m hm => plain m (by simp [hm])
    have last : (ns ++ (ds ++ [n])).reverse = n :: (ns ++ ds).reverse := by simp
    have missing : (home t (ns ++ ds).reverse).2 ≠ [] := by
      intro none
      refine above fun m hm => ?_
      rw [none] at hm
      cases hm
    have parent := not_dirAt_home missing
    have none_ : dirAt t (n :: (ns ++ ds).reverse).reverse = none := by
      obtain ⟨e, lost⟩ := resolve_of_not_dirAt (plain n (by simp)) parent true
      rw [List.reverse_cons, dirAt, lost]
    rw [last, home, none_]
    intro free
    refine above fun m hm => free m ?_
    rwa [List.head?_append_of_ne_nil _ missing]

/-- The directory `loc` of `t` holds the files `fs` and their directories, and nothing else; outside it `t` is as
    `t₀`. -/
structure Filled (t₀ : Tree α) (loc : Loc) (fs : List (Loc × α)) (t : Tree α) : Prop where
  outside : ∀ l, ¬loc <+: l → t.get l = t₀.get l
  top : t.get loc = some .dir
  files : ∀ l x, l ≠ [] → (t.get (loc ++ l) = some (.file x) ↔ (l, x) ∈ fs)
  dirs : ∀ l, l ≠ [] → (t.get (loc ++ l) = some .dir ↔ ∃ f ∈ fs, ∃ rest, rest ≠ [] ∧ f.1 = l ++ rest)
  links : ∀ l rooted target, t.get (loc ++ l) ≠ some (.link rooted target)

theorem filled_mkdir (room : t.Room loc) (new : t.get loc = none) : Filled t loc [] (t.put loc .dir) := by
  have below (l : List String) (ne : l ≠ []) : (t.put loc .dir).get (loc ++ l) = none := by
    rw [Tree.get_put room, if_neg (by simpa using ne), absent_below new]
  refine ⟨fun l apart => ?_, by rw [Tree.get_put room, if_pos rfl], fun l x ne => ?_, fun l ne => ?_,
    fun l rooted target => ?_⟩
  · rw [Tree.get_put room, if_neg]
    rintro rfl
    exact apart (List.prefix_refl _)
  · simp [below l ne]
  · simp [below l ne]
  · by_cases ne : l = []
    · rw [ne, List.append_nil, Tree.get_put room, if_pos rfl]
      simp
    · simp [below l ne]

theorem Filled.congr {t₀ t' : Tree α} {fs : List (Loc × α)} (h : Filled t₀ loc fs t) (same : ∀ l, t'.get l = t.get l) :
    Filled t₀ loc fs t' where
  outside l apart := by rw [same, h.outside l apart]
  top := by rw [same, h.top]
  files l x ne := by rw [same, h.files l x ne]
  dirs l ne := by rw [same, h.dirs l ne]
  links l rooted target := by rw [same]; exact h.links l rooted target

theorem get_mkdirAll (links : ∀ l rooted target, d.tree.get (loc ++ l) ≠ some (.link rooted target))
    (way : dirAt d.tree ns = some loc) (names : ∀ m ∈ ds, Plain m) {slash : Bool}
    (made : mkdirAll d slash (ns ++ ds).reverse = (.ok (), d')) :
    dirAt d'.tree (ns ++ ds) = some (loc ++ ds) ∧ (∀ l, ¬loc <+: l → d'.tree.get l = d.tree.get l) ∧
      (∀ l, d'.tree.get (loc ++ l) = if l <+: ds then some .dir else d.tree.get (loc ++ l)) ∧
        ∀ l, l <+: ds → d.tree.get (loc ++ l) = none ∨ d.tree.get (loc ++ l) = some .dir := by
  obtain ⟨above, below, split, deepest⟩ := home_below (fun l _ => links l) way names
  obtain ⟨makes, refuses⟩ := mkdirAll_append d way names deepest slash
  have dir := @get_home _ d.tree (ns ++ ds).reverse
  rw [deepest] at dir
  dsimp only at dir
  have free : Free d.tree (loc ++ above) below := by
    by_contra taken
    obtain ⟨e, failed⟩ := refuses taken
    rw [made] at failed
    cases failed
  obtain ⟨done, found⟩ := makes free
  rw [made] at done
  obtain rfl := (Prod.mk.inj done).2
  rw [List.append_assoc loc, ← split] at found
  have grown := (get_grow dir free).1
  have inChain (l : List String) : loc ++ l ∈ chain (loc ++ above) below ↔ ∃ c e, c ≠ [] ∧ below = c ++ e ∧
    l = above ++ c := by
    rw [mem_chain_iff]
    simp only [List.append_assoc, List.append_cancel_left_eq]
  -- A directory on the way is above the deepest one, or it is new.
  have cases_ {l : List String} (on : l <+: ds) : d.tree.get (loc ++ l) = some .dir ∨
      loc ++ l ∈ chain (loc ++ above) below ∧ d.tree.get (loc ++ l) = none := by
    obtain ⟨rest, same⟩ := on
    rw [split] at same
    rcases List.append_eq_append_iff.mp same with ⟨c, rfl, -⟩ | ⟨c, rfl, split'⟩
    · by_cases whole : c = []
      · rw [whole, List.append_nil] at dir
        exact .inl dir
      · exact .inl (dir_above dir whole)
    · cases c with
      | nil => exact .inl (by rwa [List.append_nil])
      | cons m c =>
        refine .inr ⟨(inChain _).mpr ⟨m :: c, rest, by simp, split', rfl⟩, ?_⟩
        have first := absent_below (free m (by rw [split']; rfl)) c
        simpa using first
  refine ⟨found, fun l apart => ?_, fun l => ?_, fun l on => (cases_ on).elim .inr fun new => .inl new.2⟩
  · rw [grown, if_neg]
    intro new
    obtain ⟨c, e, -, -, rfl⟩ := mem_chain_iff.mp new
    exact apart ⟨above ++ c, by simp⟩
  · rw [grown]
    by_cases on : l <+: ds
    · rw [if_pos on]
      rcases cases_ on with old | new
      · rw [old, ite_self]
      · rw [if_pos new.1]
    · rw [if_neg on, if_neg]
      intro new
      obtain ⟨c, e, -, split', rfl⟩ := (inChain l).mp new
      exact on ⟨e, by rw [split, split', List.append_assoc]⟩

/-- A file is added, in directories that are made for it. -/
theorem Filled.add {t₀ : Tree α} {fs : List (Loc × α)} (h : Filled t₀ loc fs t) {t' : Tree α}
    (outside : ∀ l, ¬loc <+: l → t'.get l = t.get l)
    (inside : ∀ l, t'.get (loc ++ l) = if l <+: ds then some .dir else t.get (loc ++ l))
    (before : ∀ l, l <+: ds → t.get (loc ++ l) = none ∨ t.get (loc ++ l) = some .dir)
    (vacant : t'.get (loc ++ ds ++ [n]) = none) (x : α) :
    Filled t₀ loc (fs ++ [(ds ++ [n], x)]) (t'.put (loc ++ ds ++ [n]) (.file x)) := by
  have parent : t'.get (loc ++ ds) = some .dir := by rw [inside, if_pos (List.prefix_refl _)]
  have put := Tree.get_put (room_of_free parent vacant) (.file x)
  have longer : ¬ds ++ [n] <+: ds := by
    intro short
    have shorter := short.length_le
    rw [List.length_append, List.length_singleton] at shorter
    exact absurd shorter (Nat.not_succ_le_self _)
  have file : (t'.put (loc ++ ds ++ [n]) (.file x)).get (loc ++ (ds ++ [n])) = some
    (.file x) := by rw [put, if_pos (List.append_assoc ..).symm]
  have other {l : List String} (apart : l ≠ ds ++ [n]) : (t'.put (loc ++ ds ++ [n]) (.file x)).get (loc ++ l) =
      if l <+: ds then some .dir else t.get (loc ++ l) := by
    rw [put, if_neg, inside]
    rw [List.append_assoc]
    exact fun same => apart (List.append_cancel_left same)
  have absent : t.get (loc ++ (ds ++ [n])) = none := by
    rw [List.append_assoc, inside, if_neg longer] at vacant
    exact vacant
  refine ⟨fun l apart => ?_, ?_, fun l y ne => ?_, fun l ne => ?_, fun l rooted target => ?_⟩
  · rw [put, if_neg, outside l apart, h.outside l apart]
    rintro rfl
    exact apart ⟨ds ++ [n], by simp⟩
  · have top := @other [] (by simp)
    rwa [if_pos List.nil_prefix, List.append_nil] at top
  · rw [List.mem_append, List.mem_singleton, Prod.mk.injEq]
    by_cases here : l = ds ++ [n]
    · have old : (ds ++ [n], y) ∉ fs := by
        intro mem
        rw [(h.files _ _ (by simp)).mpr mem] at absent
        cases absent
      rw [here, file]
      simp only [old, false_or, true_and, Option.some.injEq, Entry.file.injEq]
      exact eq_comm
    · rw [other here, ← h.files l y ne]
      simp only [here, false_and, or_false]
      by_cases on : l <+: ds
      · rw [if_pos on]
        rcases before l on with old | old <;> simp [old]
      · rw [if_neg on]
  · have proper : (∃ rest, rest ≠ [] ∧ ds ++ [n] = l ++ rest) ↔ l <+: ds := by
      constructor
      · rintro ⟨rest, ne', same⟩
        obtain ⟨rest, m, rfl⟩ := (List.eq_nil_or_concat rest).resolve_left ne'
        rw [List.concat_eq_append, ← List.append_assoc] at same
        exact ⟨rest, (List.append_inj' same rfl).1.symm⟩
      · rintro ⟨rest, rfl⟩
        exact ⟨rest ++ [n], by simp, by simp⟩
    simp only [List.mem_append, List.mem_singleton, or_and_right, exists_or, exists_eq_left, proper]
    by_cases here : l = ds ++ [n]
    · rw [here, file, ← h.dirs _ (by simp), absent]
      simp [longer]
    · rw [other here, ← h.dirs l ne]
      by_cases on : l <+: ds
      · simp [on]
      · simp [on]
  · by_cases here : l = ds ++ [n]
    · rw [here, file]
      simp
    · rw [other here]
      split_ifs
      · simp
      · exact h.links l rooted target

end

end Files

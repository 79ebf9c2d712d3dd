import Aquila.Lib.Keyed

/-! A tree of files with symbolic links, as the calls of an operating system see it. A call resolves its path to a
    location; what it does is known from the deepest directory on the way, `home`, and the names below it. -/

namespace Files

/-- The names on the way from the root to an entry, without links. -/
abbrev Loc := List String

inductive Entry (α : Type) where
  | file (data : α)
  | dir
  | link (rooted : Bool) (target : List String)
deriving DecidableEq, Repr

inductive Errno where
  | noEntry
  | notDir
  | isDir
  | occupied
  | notEmpty
  | busy
  | loop
  | invalid
  | tooLong
deriving DecidableEq, Repr

variable {α : Type}

def Entry.isDir : Entry α → Bool
  | dir => true
  | _ => false

/-- The entry at a location. The root is a directory. -/
def lookup (entries : List (Loc × Entry α)) (loc : Loc) : Option (Entry α) :=
  if loc = [] then some .dir else (Keyed.get (·.1) entries loc).map (·.2)

structure Tree (α : Type) where
  entries : List (Loc × Entry α)
  nested : ∀ loc n e, lookup entries (loc ++ [n]) = some e → lookup entries loc = some .dir

namespace Tree

def empty : Tree α where
  entries := []
  nested := by simp [lookup, Keyed.get]

variable (t : Tree α)

def get (loc : Loc) : Option (Entry α) := lookup t.entries loc

def isDir (loc : Loc) : Bool := (t.get loc).any Entry.isDir

def childless (loc : Loc) : Bool := t.entries.all fun e => e.1 = [] || e.1.dropLast ≠ loc

variable {t} {loc : Loc}

@[simp] theorem get_root : t.get [] = some .dir := rfl

theorem isDir_iff : t.isDir loc = true ↔ t.get loc = some .dir := by
  rw [isDir]
  cases t.get loc with
  | none => simp
  | some e => cases e <;> simp [Entry.isDir]

theorem get_of_child {n : String} {e : Entry α} (h : t.get (loc ++ [n]) = some e) : t.get loc = some .dir :=
  t.nested loc n e h

theorem get_dropLast {e : Entry α} (h : t.get loc = some e) : t.get loc.dropLast = some .dir := by
  rcases List.eq_nil_or_concat loc with rfl | ⟨l, n, rfl⟩
  · exact get_root
  · rw [List.concat_eq_append] at h ⊢
    rw [List.dropLast_concat]
    exact get_of_child h

theorem childless_iff : t.childless loc = true ↔ ∀ n, t.get (loc ++ [n]) = none := by
  have missing (n : String) : t.get (loc ++ [n]) = none ↔ loc ++ [n] ∉ t.entries.map (·.1) := by
    rw [get, lookup, if_neg (by simp), Option.map_eq_none_iff, Keyed.get_eq_none_iff]
  simp only [missing, childless, List.all_eq_true, Bool.or_eq_true, decide_eq_true_eq, List.mem_map,
    not_exists, not_and]
  constructor
  · intro all n e he same
    rcases all e he with empty | other
    · simp [same] at empty
    · exact other (by rw [same, List.dropLast_concat])
  · intro none e he
    by_cases empty : e.1 = []
    · exact .inl empty
    · refine .inr fun same => none (e.1.getLast empty) e he ?_
      rw [← same, List.dropLast_append_getLast]

end Tree

/-! ### Changes -/

theorem lookup_put {entries : List (Loc × Entry α)} {loc : Loc} {e : Entry α} (ne : loc ≠ []) (loc' : Loc) :
    lookup (Keyed.put (·.1) entries (loc, e)) loc' = if loc' = loc then some e else lookup entries loc' := by
  by_cases same : loc' = loc
  · subst same
    have := @Keyed.get_put_self _ _ _ (fun x : Loc × Entry α => x.1) entries (loc', e)
    rw [if_pos rfl, lookup, if_neg ne, this, Option.map_some]
  · rw [if_neg same, lookup, lookup, Keyed.get_put_of_ne same]

theorem lookup_filter {entries : List (Loc × Entry α)} {loc : Loc} (ne : loc ≠ []) (loc' : Loc) :
    lookup (entries.filter (·.1 ≠ loc)) loc' = if loc' = loc then none else lookup entries loc' := by
  by_cases same : loc' = loc
  · subst same
    rw [if_pos rfl, lookup, if_neg ne, Option.map_eq_none_iff, Keyed.get_eq_none_iff]
    simp
  · rw [if_neg same, lookup, lookup]
    congr 2
    rw [Keyed.get, Keyed.get, List.find?_filter]
    congr 1
    funext x
    by_cases h : x.1 = loc' <;> simp [h, same]

namespace Tree

/-- Where an entry can be put: in a directory, and not over one. -/
def Room (t : Tree α) (loc : Loc) : Prop := loc ≠ [] ∧ t.isDir loc.dropLast = true ∧ t.isDir loc = false

instance (t : Tree α) (loc : Loc) : Decidable (t.Room loc) := inferInstanceAs (Decidable (_ ∧ _))

theorem nested_put {t : Tree α} {loc : Loc} {e : Entry α} (room : t.Room loc) (l : Loc) (n : String) (e' : Entry α)
    (h : lookup (Keyed.put (·.1) t.entries (loc, e)) (l ++ [n]) = some e') :
    lookup (Keyed.put (·.1) t.entries (loc, e)) l = some .dir := by
  obtain ⟨ne, parent, apart⟩ := room
  rw [lookup_put ne] at h ⊢
  have kept : lookup t.entries l = some .dir := by
    split_ifs at h with same
    · rw [← same, List.dropLast_concat] at parent
      exact isDir_iff.mp parent
    · exact t.nested l n e' h
  have other : l ≠ loc := by
    rintro rfl
    exact absurd (isDir_iff.mpr kept) (by rw [apart]; decide)
  rw [if_neg other, kept]

theorem nested_erase {t : Tree α} {loc : Loc} (leaf : loc ≠ [] ∧ t.childless loc = true) (l : Loc)
    (n : String) (e : Entry α)
    (h : lookup (t.entries.filter (·.1 ≠ loc)) (l ++ [n]) = some e) :
    lookup (t.entries.filter (·.1 ≠ loc)) l = some .dir := by
  rw [lookup_filter leaf.1] at h ⊢
  split_ifs at h with same
  have other : l ≠ loc := by
    rintro rfl
    have : t.get (l ++ [n]) = some e := h
    rw [childless_iff.mp leaf.2 n] at this
    exact nomatch this
  rw [if_neg other, t.nested l n e h]

def put (t : Tree α) (loc : Loc) (e : Entry α) : Tree α :=
  if room : t.Room loc then ⟨Keyed.put (·.1) t.entries (loc, e), nested_put room⟩ else t

def erase (t : Tree α) (loc : Loc) : Tree α :=
  if leaf : loc ≠ [] ∧ t.childless loc = true then ⟨t.entries.filter (·.1 ≠ loc), nested_erase leaf⟩ else t

theorem get_put {t : Tree α} {loc : Loc} (room : t.Room loc) (e : Entry α) (loc' : Loc) :
    (t.put loc e).get loc' = if loc' = loc then some e else t.get loc' := by
  rw [put, dif_pos room]
  exact lookup_put room.1 loc'

theorem get_put_eq_iff {t : Tree α} {loc : Loc} (room : t.Room loc) {e e' : Entry α} :
    (∀ loc', (t.put loc e).get loc' = if loc' = loc then some e' else t.get loc') ↔ e = e' := by
  simp only [get_put room]
  constructor
  · intro all
    have here := all loc
    rwa [if_pos rfl, if_pos rfl, Option.some.injEq] at here
  · rintro rfl loc'
    rfl

end Tree

/-- A tree with the locations that were created, overwritten or removed, in this order. -/
structure Disk (α : Type) where
  tree : Tree α
  touched : List Loc := []

namespace Disk

def put (d : Disk α) (loc : Loc) (e : Entry α) : Disk α := { tree := d.tree.put loc e, touched := d.touched ++ [loc] }
def erase (d : Disk α) (loc : Loc) : Disk α := { tree := d.tree.erase loc, touched := d.touched ++ [loc] }

end Disk

/-! ### Paths -/

/-- The links that are followed on one path. -/
def maxLinks : Nat := 40

section
variable (t : Tree α) (follow : Bool)

/-- The location of a path from the directory `here`. The last name need not lead to an entry. A link on the way is
    left to `jump`, and a link at the end, too, if it is to be followed. -/
def steps (jump : Loc → List String → Except Errno Loc) : Loc → List String → Except Errno Loc
  | here, [] => .ok here
  | here, n :: ns =>
    if n = "" ∨ n = "." then steps jump here ns
    else if n = ".." then steps jump here.dropLast ns
    else match t.get (here ++ [n]) with
      | none => if ns = [] then .ok (here ++ [n]) else .error .noEntry
      | some (.file _) => if ns = [] then .ok (here ++ [n]) else .error .notDir
      | some .dir => steps jump (here ++ [n]) ns
      | some (.link rooted target) =>
        if ns = [] ∧ follow = false then .ok (here ++ [n]) else jump (if rooted then [] else here) (target ++ ns)

def walk : (links : Nat) → Loc → List String → Except Errno Loc
  | 0 => steps t follow fun _ _ => .error .loop
  | k + 1 => steps t follow (walk k)

def resolve (names : List String) : Except Errno Loc := walk t follow maxLinks [] names

end

/-- A name that leads down. -/
structure Plain (n : String) : Prop where
  nonempty : n ≠ ""
  notHere : n ≠ "."
  notUp : n ≠ ".."

section
variable {t : Tree α} {n : String}

/-- The location of one name more below a resolved path. -/
def enter (t : Tree α) (n : String) (r : Except Errno Loc) : Except Errno Loc :=
  match r with
  | .error e => .error e
  | .ok loc =>
    match t.get loc with
    | none => .error .noEntry
    | some (.file _) => .error .notDir
    | _ => .ok (loc ++ [n])

/-- What resolving one name more gives. A link at the end may still be followed. -/
structure Enters (t : Tree α) (follow : Bool) (n : String) (r r' : Except Errno Loc) : Prop where
  fails : ∀ e, enter t n r = .error e → r' = .error e
  leads : follow = false → r' = enter t n r

theorem Enters.of_error {follow : Bool} {r : Except Errno Loc} {e : Errno} (h : enter t n r = .error e) :
    Enters t follow n r (.error e) :=
  ⟨fun _ h' => by rw [← h', h], fun _ => h.symm⟩

theorem steps_concat (plain : Plain n) {follow : Bool} {jump jump' : Loc → List String → Except Errno Loc}
    (jumps : ∀ here ns, t.get here = some .dir → Enters t follow n (jump here ns) (jump' here (ns ++ [n])))
    {here : Loc} (dir : t.get here = some .dir) (ns : List String) :
    Enters t follow n (steps t true jump here ns) (steps t follow jump' here (ns ++ [n])) := by
  induction ns generalizing here with
  | nil =>
    have entered : enter t n (.ok here) = .ok (here ++ [n]) := by simp only [enter, dir]
    refine ⟨fun e h => ?_, ?_⟩
    · rw [steps, entered] at h
      cases h
    · rintro rfl
      rw [steps, entered, List.nil_append, steps, if_neg (by simp [plain.nonempty, plain.notHere]), if_neg plain.notUp]
      cases t.get (here ++ [n]) with
      | none => rfl
      | some e => cases e <;> rfl
  | cons m ns ih =>
    have more : ns ++ [n] ≠ [] := by simp
    rw [List.cons_append, steps, steps]
    by_cases stay : m = "" ∨ m = "."
    · rw [if_pos stay, if_pos stay]
      exact ih dir
    · rw [if_neg stay, if_neg stay]
      by_cases up : m = ".."
      · rw [if_pos up, if_pos up]
        exact ih (Tree.get_dropLast dir)
      · rw [if_neg up, if_neg up]
        cases entry : t.get (here ++ [m]) with
        | none =>
          simp only [more, if_false]
          exact .of_error (by split_ifs <;> simp [enter, entry])
        | some e =>
          cases e with
          | file data =>
            simp only [more, if_false]
            exact .of_error (by split_ifs <;> simp [enter, entry])
          | dir => exact ih entry
          | link rooted target =>
            simp only [more, false_and, if_false, Bool.true_eq_false, and_false]
            rw [← List.append_assoc]
            refine jumps _ _ ?_
            split_ifs
            · exact Tree.get_root
            · exact dir

theorem walk_concat (plain : Plain n) (follow : Bool) (k : Nat) {here : Loc} (dir : t.get here = some .dir)
    (ns : List String) :
    Enters t follow n (walk t true k here ns) (walk t follow k here (ns ++ [n])) := by
  induction k generalizing here ns with
  | zero => exact steps_concat plain (fun _ _ _ => .of_error rfl) dir ns
  | succ k ih => exact steps_concat plain (fun _ ns dir => ih dir ns) dir ns

theorem resolve_concat (plain : Plain n) (ns : List String) :
    resolve t false (ns ++ [n]) = enter t n (resolve t true ns) :=
  (walk_concat plain false maxLinks Tree.get_root ns).leads rfl

theorem resolve_concat_error (plain : Plain n) {follow : Bool} {ns : List String} {e : Errno}
    (h : enter t n (resolve t true ns) = .error e) :
    resolve t follow (ns ++ [n]) = .error e :=
  (walk_concat plain follow maxLinks Tree.get_root ns).fails e h

variable {follow : Bool} {k : Nat} {here loc : Loc} {ns : List String}

/-- Where a path leads, it leads in a tree with more entries, also if a link at its end is followed there. -/
theorem walk_transfer {t' : Tree α} {follow' : Bool}
    (more : ∀ loc e, t.get loc = some e → t'.get loc = some e) (absent : t.get loc = none → t' = t)
    (ends : follow' = follow ∨ follow = false ∧ ∀ rooted target, t.get loc ≠ some (.link rooted target))
    (h : walk t follow k here ns = .ok loc) : walk t' follow' k here ns = .ok loc := by
  have one {jump jump' : Loc → List String → Except Errno Loc}
      (jumps : ∀ here ns, jump here ns = .ok loc → jump' here ns = .ok loc) :
      ∀ {ns : List String} {here : Loc}, steps t follow jump here ns = .ok loc →
        steps t' follow' jump' here ns = .ok loc := by
    intro ns
    induction ns with
    | nil => exact fun h => h
    | cons n ns ih =>
      intro here h
      rw [steps] at h ⊢
      by_cases stay : n = "" ∨ n = "."
      · rw [if_pos stay] at h ⊢
        exact ih h
      · rw [if_neg stay] at h ⊢
        by_cases up : n = ".."
        · rw [if_pos up] at h ⊢
          exact ih h
        · rw [if_neg up] at h ⊢
          cases entry : t.get (here ++ [n]) with
          | none =>
            rw [entry] at h
            have same : t' = t := by
              dsimp only at h
              split_ifs at h
              cases Except.ok.inj h
              exact absent entry
            rw [same, entry]
            exact h
          | some e =>
            rw [more _ _ entry]
            rw [entry] at h
            cases e with
            | file data => exact h
            | dir => exact ih h
            | link rooted target =>
              dsimp only at h ⊢
              by_cases stop : ns = [] ∧ follow = false
              · rw [if_pos stop] at h
                rcases ends with rfl | ⟨-, noLink⟩
                · rwa [if_pos stop]
                · cases Except.ok.inj h
                  exact absurd entry (noLink rooted target)
              · rw [if_neg stop] at h
                rw [if_neg, jumps _ _ h]
                rintro ⟨last, off⟩
                rcases ends with rfl | ⟨off', -⟩
                · exact stop ⟨last, off⟩
                · exact stop ⟨last, off'⟩
  induction k generalizing here ns with
  | zero => exact one (fun _ _ h => by cases h) h
  | succ k ih => exact one (fun _ _ h => ih h) h

theorem walk_follow (h : walk t false k here ns = .ok loc)
    (noLink : ∀ rooted target, t.get loc ≠ some (.link rooted target)) : walk t true k here ns = .ok loc :=
  walk_transfer (fun _ _ h => h) (fun _ => rfl) (.inr ⟨rfl, noLink⟩) h

theorem walk_mono {t' : Tree α} (more : ∀ loc e, t.get loc = some e → t'.get loc = some e)
    (h : walk t follow k here ns = .ok loc) (found : t.get loc ≠ none) : walk t' follow k here ns = .ok loc :=
  walk_transfer more (fun none => absurd none found) (.inl rfl) h

/-- A resolved path, step by step. -/
inductive Leads (t : Tree α) (follow : Bool) : Loc → List String → Loc → Prop
  | here (here : Loc) : Leads t follow here [] here
  | stay {here loc : Loc} {n : String} {ns : List String} : Leads t follow here ns loc →
    Leads t follow here (n :: ns) loc
  | up {here loc : Loc} {n : String} {ns : List String} : Leads t follow here.dropLast ns loc →
    Leads t follow here (n :: ns) loc
  | down {here loc : Loc} {n : String} {ns : List String} : t.get (here ++ [n]) = some .dir →
    Leads t follow (here ++ [n]) ns loc →
      Leads t follow here (n :: ns) loc
  | last {here : Loc} {n : String} :
    (follow = true → ∀ rooted target, t.get (here ++ [n]) ≠ some (.link rooted target)) →
      Leads t follow here [n] (here ++ [n])
  | jump {here loc : Loc} {n : String} {ns : List String} (rooted : Bool) (target : List String) :
      Leads t follow (if rooted then [] else here) (target ++ ns) loc → Leads t follow here (n :: ns) loc

theorem leads_of_steps {jump : Loc → List String → Except Errno Loc}
    (jumps : ∀ here ns, jump here ns = .ok loc → Leads t follow here ns loc)
    (h : steps t follow jump here ns = .ok loc) : Leads t follow here ns loc := by
  induction ns generalizing here with
  | nil =>
    cases Except.ok.inj h
    exact .here _
  | cons n ns ih =>
    rw [steps] at h
    by_cases stay : n = "" ∨ n = "."
    · rw [if_pos stay] at h
      exact .stay (ih h)
    · rw [if_neg stay] at h
      by_cases up : n = ".."
      · rw [if_pos up] at h
        exact .up (ih h)
      · rw [if_neg up] at h
        have last {e : Errno} (noLink : follow = true →
          ∀ rooted target, t.get (here ++ [n]) ≠ some (.link rooted target))
            (h : (if ns = [] then .ok (here ++ [n]) else .error e) = Except.ok loc) :
              Leads t follow here (n :: ns) loc := by
          split_ifs at h with none
          cases Except.ok.inj h
          exact none ▸ .last noLink
        cases entry : t.get (here ++ [n]) with
        | none =>
          rw [entry] at h
          exact last (by simp [entry]) h
        | some e =>
          rw [entry] at h
          cases e with
          | file data => exact last (by simp [entry]) h
          | dir => exact .down entry (ih h)
          | link rooted target =>
            dsimp only at h
            by_cases stop : ns = [] ∧ follow = false
            · rw [if_pos stop] at h
              cases Except.ok.inj h
              obtain ⟨rfl, off⟩ := stop
              exact .last (by simp [off])
            · rw [if_neg stop] at h
              exact .jump rooted target (jumps _ _ h)

theorem leads_of_walk (h : walk t follow k here ns = .ok loc) : Leads t follow here ns loc := by
  induction k generalizing here ns with
  | zero => exact leads_of_steps (fun _ _ h => by cases h) h
  | succ k ih => exact leads_of_steps (fun _ _ h => ih h) h

theorem Leads.spec (h : Leads t follow here ns loc) (dir : t.get here = some .dir) :
    t.get loc.dropLast = some .dir ∧ (follow = true → ∀ rooted target, t.get loc ≠ some (.link rooted target)) := by
  induction h with
  | here loc => exact ⟨Tree.get_dropLast dir, by simp [dir]⟩
  | stay _ ih => exact ih dir
  | up _ ih => exact ih (Tree.get_dropLast dir)
  | down entry _ ih => exact ih entry
  | last noLink =>
    rw [List.dropLast_concat]
    exact ⟨dir, noLink⟩
  | jump rooted target _ ih =>
    refine ih ?_
    split_ifs
    · exact Tree.get_root
    · exact dir

theorem resolve_spec (h : resolve t follow ns = .ok loc) :
    t.get loc.dropLast = some .dir ∧ (follow = true → ∀ rooted target, t.get loc ≠ some (.link rooted target)) :=
  (leads_of_walk h).spec Tree.get_root

end

/-! ### Calls -/

def lstat (t : Tree α) (names : List String) : Except Errno (Entry α) :=
  match resolve t false names with
  | .error e => .error e
  | .ok loc =>
    match t.get loc with
    | none => .error .noEntry
    | some e => .ok e

def stat (t : Tree α) (names : List String) : Except Errno (Entry α) :=
  match resolve t true names with
  | .error e => .error e
  | .ok loc =>
    match t.get loc with
    | none => .error .noEntry
    | some e => .ok e

def write (d : Disk α) (names : List String) (data : α) : Except Errno Unit × Disk α :=
  match resolve d.tree true names with
  | .error e => (.error e, d)
  | .ok loc => if d.tree.isDir loc then (.error .isDir, d) else (.ok (), d.put loc (.file data))

def mkdir (d : Disk α) (names : List String) : Except Errno Unit × Disk α :=
  match resolve d.tree false names with
  | .error e => (.error e, d)
  | .ok loc => if (d.tree.get loc).isSome then (.error .occupied, d) else (.ok (), d.put loc .dir)

def remove (d : Disk α) (names : List String) : Except Errno Unit × Disk α :=
  match resolve d.tree false names with
  | .error e => (.error e, d)
  | .ok loc =>
    if loc = [] then (.error .busy, d)
    else if (d.tree.get loc).isNone then (.error .noEntry, d)
    else if d.tree.childless loc then (.ok (), d.erase loc)
    else (.error .notEmpty, d)

def mkdirLast (d : Disk α) (names : List String) : Except (List String × Errno) Unit × Disk α :=
  match mkdir d names with
  | (.ok (), d) => (.ok (), d)
  | (.error e, d) =>
    match lstat d.tree names with
    | .ok .dir => (.ok (), d)
    | _ => (.error (names, e), d)

/-- Makes a directory with those on the way that are missing; `rev` holds the names, the last one first. A failure
    comes with the path that could not be made. The path of a directory on the way ends in a slash, so that only a
    directory is found there. -/
def mkdirAll (d : Disk α) (slash : Bool) : (rev : List String) → Except (List String × Errno) Unit × Disk α
  | [] => (.ok (), d)
  | n :: up =>
    match stat d.tree (n :: up).reverse with
    | .ok .dir => (.ok (), d)
    | other =>
      if other.isOk && !slash then (.error ((n :: up).reverse, .notDir), d)
      else match mkdirAll d true up with
        | (.error e, d) => (.error e, d)
        | (.ok (), d) => mkdirLast d (n :: up).reverse

/-! ### The way to a path -/

/-- The location of a directory. -/
def dirAt (t : Tree α) (names : List String) : Option Loc :=
  match resolve t true names with
  | .error _ => none
  | .ok loc => if t.isDir loc then some loc else none

/-- The deepest directory on the way to a path, and the names below it. -/
def home (t : Tree α) : (rev : List String) → Loc × List String
  | [] => ([], [])
  | n :: up =>
    match dirAt t (n :: up).reverse with
    | some loc => (loc, [])
    | none => ((home t up).1, (home t up).2 ++ [n])

/-- Whether the names can be made below a directory. -/
def Free (t : Tree α) (loc : Loc) (ns : List String) : Prop := ∀ n, ns.head? = some n → t.get (loc ++ [n]) = none

/-- Directories below a location, one in the other. -/
def grow (d : Disk α) (loc : Loc) : List String → Disk α
  | [] => d
  | n :: ns => grow (d.put (loc ++ [n]) .dir) (loc ++ [n]) ns

/-- The locations of directories below a location, one in the other. -/
def chain (loc : Loc) : List String → List Loc
  | [] => []
  | n :: ns => (loc ++ [n]) :: chain (loc ++ [n]) ns

variable {t : Tree α} {d : Disk α} {loc : Loc} {n : String} {names ns up rev : List String}

theorem dirAt_eq_some : dirAt t names = some loc ↔ resolve t true names = .ok loc ∧ t.get loc = some .dir := by
  rw [dirAt]
  cases resolve t true names with
  | error e => simp
  | ok loc' =>
    by_cases dir : t.isDir loc' = true
    · simp only [dir, if_true, Option.some.injEq, Except.ok.injEq]
      exact ⟨fun same => ⟨same, same ▸ Tree.isDir_iff.mp dir⟩, fun h => h.1⟩
    · simp only [dir]
      refine iff_of_false (by simp) ?_
      rintro ⟨same, entry⟩
      exact dir (Tree.isDir_iff.mpr (Except.ok.inj same ▸ entry))

theorem stat_eq_dir : stat t names = .ok .dir ↔ ∃ loc, dirAt t names = some loc := by
  simp only [dirAt_eq_some, stat]
  cases resolve t true names with
  | error e => simp
  | ok loc => cases entry : t.get loc <;> simp [entry]

theorem get_home : ∀ rev : List String, t.get (home t rev).1 = some .dir
  | [] => Tree.get_root
  | n :: up => by
    rw [home]
    cases found : dirAt t (n :: up).reverse with
    | some loc => exact (dirAt_eq_some.mp found).2
    | none => exact get_home up

theorem absent_below (missing : t.get loc = none) (rest : List String) : t.get (loc ++ rest) = none := by
  induction rest using List.reverseRecOn with
  | nil => rwa [List.append_nil]
  | append_singleton rest n ih =>
    cases entry : t.get (loc ++ (rest ++ [n])) with
    | none => rfl
    | some e =>
      rw [← List.append_assoc] at entry
      rw [Tree.get_of_child entry] at ih
      cases ih

theorem room_of_free (dir : t.get loc = some .dir) (free : t.get (loc ++ [n]) = none) : t.Room (loc ++ [n]) := by
  refine ⟨by simp, ?_, ?_⟩
  · rw [List.dropLast_concat]
    exact Tree.isDir_iff.mpr dir
  · rw [Tree.isDir, free, Option.any_none]

theorem room_of_file {data : α} (file : t.get loc = some (.file data)) : t.Room loc := by
  refine ⟨?_, Tree.isDir_iff.mpr (Tree.get_dropLast file), ?_⟩
  · rintro rfl
    cases file
  · rw [Tree.isDir, file]
    rfl

theorem grow_concat (d : Disk α) (loc : Loc) (ns : List String) (n : String) :
    grow d loc (ns ++ [n]) = (grow d loc ns).put (loc ++ ns ++ [n]) .dir := by
  induction ns generalizing d loc with
  | nil => rw [List.nil_append, List.append_nil, grow, grow, grow]
  | cons m ns ih => rw [List.cons_append, grow, grow, ih, List.append_assoc loc [m], List.singleton_append]

theorem touched_grow (d : Disk α) (loc : Loc) (ns : List String) :
    (grow d loc ns).touched = d.touched ++ chain loc ns := by
  induction ns generalizing d loc with
  | nil => rw [grow, chain, List.append_nil]
  | cons n ns ih => rw [grow, ih, chain, Disk.put, List.append_assoc, List.singleton_append]

theorem mem_chain_iff {l : Loc} : l ∈ chain loc ns ↔ ∃ c d, c ≠ [] ∧ ns = c ++ d ∧ l = loc ++ c := by
  induction ns generalizing loc with
  | nil =>
    refine iff_of_false List.not_mem_nil ?_
    rintro ⟨c, d, ne, none, -⟩
    exact ne (List.append_eq_nil_iff.mp none.symm).1
  | cons n ns ih =>
    rw [chain, List.mem_cons, ih]
    constructor
    · rintro (rfl | ⟨c, d, -, rfl, rfl⟩)
      · exact ⟨[n], ns, by simp, rfl, rfl⟩
      · exact ⟨n :: c, d, by simp, rfl, by simp⟩
    · rintro ⟨c, d, ne, split, rfl⟩
      cases c with
      | nil => exact absurd rfl ne
      | cons m c =>
        obtain ⟨rfl, rfl⟩ := List.cons_eq_cons.mp split
        by_cases last : c = []
        · exact .inl (by rw [last])
        · exact .inr ⟨c, d, last, rfl, by simp⟩

theorem mem_chain {loc' : Loc} (h : loc' ∈ chain loc ns) : ∃ n rest, loc' = loc ++ n :: rest := by
  obtain ⟨c, -, ne, -, rfl⟩ := mem_chain_iff.mp h
  obtain ⟨n, rest, rfl⟩ := List.exists_cons_of_ne_nil ne
  exact ⟨n, rest, rfl⟩

theorem get_grow (dir : d.tree.get loc = some .dir) (free : Free d.tree loc ns) :
    (∀ loc', (grow d loc ns).tree.get loc' = if loc' ∈ chain loc ns then some .dir else d.tree.get loc') ∧
      (grow d loc ns).tree.get (loc ++ ns) = some .dir ∧
      (ns ≠ [] → ∀ n, (grow d loc ns).tree.get (loc ++ ns ++ [n]) = none) := by
  induction ns generalizing d loc with
  | nil => exact ⟨fun _ => (if_neg List.not_mem_nil).symm, by rwa [List.append_nil], fun ne => absurd rfl ne⟩
  | cons n ns ih =>
    have vacant := free n rfl
    have room := room_of_free dir vacant
    have after := Tree.get_put room (.dir : Entry α)
    have below (m : String) : (d.tree.put (loc ++ [n]) .dir).get (loc ++ [n] ++ [m]) = none := by
      rw [after, if_neg (by simp), absent_below vacant]
    obtain ⟨others, last, leaf⟩ := @ih (d.put (loc ++ [n]) .dir) (loc ++ [n]) (by rw [Disk.put, after, if_pos rfl])
      fun m _ => below m
    have split : loc ++ n :: ns = loc ++ [n] ++ ns := by simp
    refine ⟨fun loc' => ?_, by rw [grow, split, last], fun _ m => ?_⟩
    · rw [grow, others, Disk.put, after, chain]
      by_cases here : loc' = loc ++ [n]
      · simp [here]
      · simp [here]
    · rw [grow, split]
      cases ns with
      | nil => rw [grow, List.append_nil]; exact below m
      | cons n' ns => exact leaf (by simp) m

theorem vacant_of_free (dir : d.tree.get loc = some .dir)
    (free : Free d.tree loc (ns ++ [n])) : (grow d loc ns).tree.get (loc ++ ns ++ [n]) = none := by
  by_cases whole : ns = []
  · rw [whole, grow, List.append_nil]
    exact free n (by rw [whole]; rfl)
  · exact (get_grow dir fun m hm => free m (by simp [hm])).2.2 whole n

theorem resolve_of_dirAt (plain : Plain n) (parent : dirAt t names = some loc) :
    resolve t false (names ++ [n]) = .ok (loc ++ [n]) := by
  obtain ⟨way, entry⟩ := dirAt_eq_some.mp parent
  rw [resolve_concat plain, way, enter, entry]

theorem dirAt_concat (plain : Plain n) (parent : dirAt t names = some loc)
    (dir : t.get (loc ++ [n]) = some .dir) : dirAt t (names ++ [n]) = some (loc ++ [n]) :=
  dirAt_eq_some.mpr ⟨walk_follow (resolve_of_dirAt plain parent) (by simp [dir]), dir⟩

theorem dirAt_mono {t' : Tree α} (more : ∀ loc e, t.get loc = some e → t'.get loc = some e)
    (h : dirAt t names = some loc) : dirAt t' names = some loc := by
  obtain ⟨way, entry⟩ := dirAt_eq_some.mp h
  exact dirAt_eq_some.mpr ⟨walk_mono more way (by simp [entry]), more _ _ entry⟩

theorem resolve_of_not_dirAt (plain : Plain n) (none : dirAt t names = none)
    (follow : Bool) : ∃ e, resolve t follow (names ++ [n]) = .error e := by
  cases way : resolve t true names with
  | error e => exact ⟨e, resolve_concat_error plain (by rw [way, enter])⟩
  | ok loc =>
    have noLink := (resolve_spec way).2 rfl
    cases entry : t.get loc with
    | none => exact ⟨.noEntry, resolve_concat_error plain (by rw [way, enter, entry])⟩
    | some e =>
      cases e with
      | file data => exact ⟨.notDir, resolve_concat_error plain (by rw [way, enter, entry])⟩
      | dir => exact absurd (dirAt_eq_some.mpr ⟨way, entry⟩) (by simp [none])
      | link rooted target => exact absurd entry (noLink rooted target)

theorem dirAt_eq_home (t : Tree α) (rev : List String) :
    dirAt t rev.reverse = if (home t rev).2 = [] then some (home t rev).1 else none := by
  cases rev with
  | nil => rfl
  | cons n up =>
    rw [home]
    cases dirAt t (n :: up).reverse <;> simp

theorem dirAt_home (whole : (home t rev).2 = []) : dirAt t rev.reverse = some (home t rev).1 := by
  rw [dirAt_eq_home, if_pos whole]

theorem not_dirAt_home (below : (home t rev).2 ≠ []) : dirAt t rev.reverse = none := by
  rw [dirAt_eq_home, if_neg below]

theorem mkdirAll_of_not_dir {slash : Bool} (none : dirAt d.tree (n :: up).reverse = none) : mkdirAll d slash (n :: up) =
      if (stat d.tree (n :: up).reverse).isOk && !slash then (.error ((n :: up).reverse, .notDir), d)
      else match mkdirAll d true up with
        | (.error e, d) => (.error e, d)
        | (.ok (), d) => mkdirLast d (n :: up).reverse := by
  have noDir : stat d.tree (n :: up).reverse ≠ .ok .dir := by
    rw [Ne, stat_eq_dir, none]
    simp
  rw [mkdirAll]
  split
  · next found => exact absurd found noDir
  · rfl

theorem stat_of_free (plain : Plain n) (free : Free t (home t up).1 ((home t up).2 ++ [n])) :
    (stat t (n :: up).reverse).isOk = false := by
  rw [List.reverse_cons]
  by_cases whole : (home t up).2 = []
  · have vacant : t.get ((home t up).1 ++ [n]) = none := free n (by rw [whole]; rfl)
    have way := walk_follow (resolve_of_dirAt plain (dirAt_home whole)) (by simp [vacant])
    rw [stat, resolve, way]
    simp only [vacant]
    rfl
  · obtain ⟨e, lost⟩ := resolve_of_not_dirAt plain (not_dirAt_home whole) true
    rw [stat, lost]
    rfl

theorem home_of_dirAt (found : dirAt t rev.reverse = some loc) : home t rev = (loc, []) := by
  cases rev with
  | nil => rw [home, Option.some.inj (found : some [] = some loc)]
  | cons n up => rw [home, found]

theorem mkdirAll_of_dirAt {slash : Bool} (found : dirAt d.tree rev.reverse = some loc) :
    mkdirAll d slash rev = (.ok (), d) := by
  cases rev with
  | nil => rfl
  | cons n up =>
    have stated := stat_eq_dir.mpr ⟨loc, found⟩
    rw [mkdirAll, stated]

/-- `mkdirAll` makes the names below the deepest directory, or it fails and makes nothing. -/
theorem mkdirAll_below (d : Disk α) {base : List String} {here : Loc} (start : dirAt d.tree base.reverse = some here)
    {below : List String}
    (plain : ∀ n ∈ below, Plain n) (slash : Bool) :
    (Free d.tree (home d.tree (below ++ base)).1 (home d.tree (below ++ base)).2 →
      mkdirAll d slash (below ++ base) = (.ok (),
        grow d (home d.tree (below ++ base)).1 (home d.tree (below ++ base)).2) ∧
        dirAt (grow d (home d.tree (below ++ base)).1 (home d.tree (below ++ base)).2).tree (below ++ base).reverse =
          some ((home d.tree (below ++ base)).1 ++ (home d.tree (below ++ base)).2)) ∧
      (¬Free d.tree (home d.tree (below ++ base)).1 (home d.tree (below ++ base)).2 →
        ∃ e, mkdirAll d slash (below ++ base) = (.error e, d)) := by
  induction below generalizing slash with
  | nil =>
    rw [List.nil_append, home_of_dirAt start, mkdirAll_of_dirAt start, List.append_nil]
    exact ⟨fun _ => ⟨rfl, start⟩, fun taken => absurd (fun n hn => by cases hn) taken⟩
  | cons n names ih =>
    obtain ⟨first, above⟩ := List.forall_mem_cons.mp plain
    rw [List.cons_append]
    generalize names ++ base = up at ih
    cases found : dirAt d.tree (n :: up).reverse with
    | some loc =>
      rw [home_of_dirAt found, mkdirAll_of_dirAt found, List.append_nil]
      exact ⟨fun _ => ⟨rfl, found⟩, fun taken => absurd (fun n hn => by cases hn) taken⟩
    | none =>
      have parts : home d.tree (n :: up) = ((home d.tree up).1, (home d.tree up).2 ++ [n]) := by rw [home, found]
      have dir := @get_home _ d.tree up
      obtain ⟨made, refused⟩ := ih above true
      rw [parts, mkdirAll_of_not_dir found]
      dsimp only
      constructor
      · intro free
        have freeUp : Free d.tree (home d.tree up).1 (home d.tree up).2 := fun m hm => free m (by simp [hm])
        obtain ⟨done, way⟩ := made freeUp
        have last := (get_grow dir freeUp).2.1
        have vacant := vacant_of_free dir free
        rw [stat_of_free first free, Bool.false_and, if_neg Bool.false_ne_true, done, grow_concat, ← List.append_assoc]
        generalize grow d (home d.tree up).1 (home d.tree up).2 = g at way last vacant
        generalize (home d.tree up).1 ++ (home d.tree up).2 = loc at way last vacant
        have after := Tree.get_put (room_of_free last vacant) (.dir : Entry α)
        rw [List.reverse_cons]
        constructor
        · simp only [mkdirLast, mkdir, resolve_of_dirAt first way, vacant, Option.isSome_none,
            Bool.false_eq_true, if_false]
        · refine dirAt_concat first (dirAt_mono (fun l e h => ?_) way) (by rw [Disk.put, after, if_pos rfl])
          rw [Disk.put, after, if_neg, h]
          rintro rfl
          rw [vacant] at h
          cases h
      · intro taken
        split_ifs
        · exact ⟨_, rfl⟩
        · by_cases whole : (home d.tree up).2 = []
          · -- the name is there, but it is no directory
            have freeUp : Free d.tree (home d.tree up).1 (home d.tree up).2 := fun m hm => by rw [whole] at hm; cases hm
            obtain ⟨done, -⟩ := made freeUp
            have way := dirAt_home whole
            rw [whole, grow] at done
            rw [done, List.reverse_cons]
            obtain ⟨e, entry⟩ : ∃ e, d.tree.get ((home d.tree up).1 ++ [n]) = some e := by
              refine Option.ne_none_iff_exists'.mp fun vacant => taken fun m hm => ?_
              rw [whole] at hm
              cases hm
              exact vacant
            have noDir : e ≠ .dir := by
              rintro rfl
              have := dirAt_concat first way entry
              rw [← List.reverse_cons, found] at this
              cases this
            refine ⟨(up.reverse ++ [n], .occupied), ?_⟩
            simp only [mkdirLast, mkdir, lstat, resolve_of_dirAt first way, entry, Option.isSome_some, if_true]
            cases e with
            | dir => exact absurd rfl noDir
            | file data => rfl
            | link rooted target => rfl
          · have takenUp : ¬Free d.tree (home d.tree up).1 (home d.tree up).2 := by
              intro free
              refine taken fun m hm => free m ?_
              rwa [List.head?_append_of_ne_nil _ whole] at hm
            obtain ⟨e, failed⟩ := refused takenUp
            exact ⟨e, by rw [failed]⟩

theorem mkdirAll_spec (d : Disk α) (plain : ∀ n ∈ rev, Plain n) (slash : Bool) :
    (Free d.tree (home d.tree rev).1 (home d.tree rev).2 →
      mkdirAll d slash rev = (.ok (), grow d (home d.tree rev).1 (home d.tree rev).2) ∧
        dirAt (grow d (home d.tree rev).1 (home d.tree rev).2).tree rev.reverse = some
        ((home d.tree rev).1 ++ (home d.tree rev).2)) ∧
      (¬Free d.tree (home d.tree rev).1 (home d.tree rev).2 → ∃ e, mkdirAll d slash rev = (.error e, d)) := by
  have top : dirAt d.tree ([] : List String).reverse = some [] := rfl
  have spec := mkdirAll_below d top plain slash
  rwa [List.append_nil] at spec

/-! ### Calls on a name in a directory -/

theorem lstat_concat (plain : Plain n) {e : Entry α} :
    lstat t (ns ++ [n]) = .ok e ↔ (home t ns.reverse).2 = [] ∧ t.get ((home t ns.reverse).1 ++ [n]) = some e := by
  have names := List.reverse_reverse ns
  rw [lstat]
  by_cases whole : (home t ns.reverse).2 = []
  · have parent := dirAt_home whole
    rw [names] at parent
    rw [resolve_of_dirAt plain parent]
    cases entry : t.get ((home t ns.reverse).1 ++ [n]) <;> simp [entry, whole]
  · have parent := not_dirAt_home whole
    rw [names] at parent
    obtain ⟨e, lost⟩ := resolve_of_not_dirAt plain parent false
    rw [lost]
    simp [whole]

theorem write_concat (plain : Plain n) (parent : dirAt d.tree ns = some loc)
    (target : d.tree.get (loc ++ [n]) = none ∨ ∃ old, d.tree.get (loc ++ [n]) = some (.file old)) (data : α) :
    write d (ns ++ [n]) data = (.ok (), d.put (loc ++ [n]) (.file data)) := by
  have noLink : ∀ rooted names, d.tree.get (loc ++ [n]) ≠ some (.link rooted names) := by
    rcases target with none | ⟨old, file⟩
    · simp [none]
    · simp [file]
  have noDir : d.tree.isDir (loc ++ [n]) = false := by
    rcases target with none | ⟨old, file⟩
    · rw [Tree.isDir, none, Option.any_none]
    · rw [Tree.isDir, file]
      rfl
  have way := walk_follow (resolve_of_dirAt plain parent) noLink
  rw [write, resolve, way]
  simp only [noDir, Bool.false_eq_true, if_false]

theorem stat_of_lstat {e : Entry α} (h : lstat t names = .ok e)
    (noLink : ∀ rooted target, e ≠ .link rooted target) : stat t names = .ok e := by
  rw [lstat] at h
  cases way : resolve t false names with
  | error e => simp [way] at h
  | ok loc =>
    cases entry : t.get loc with
    | none => simp [way, entry] at h
    | some e' =>
      simp only [way, entry, Except.ok.injEq] at h
      subst h
      have followed : resolve t true names = .ok loc := walk_follow way fun rooted target same =>
        noLink rooted target (Option.some.inj (entry.symm.trans same))
      rw [stat, followed]
      simp only [entry]

theorem remove_concat (d : Disk α) (plain : Plain n) :
    ((home d.tree ns.reverse).2 = [] ∧ d.tree.get ((home d.tree ns.reverse).1 ++ [n]) ≠ none ∧
        d.tree.childless ((home d.tree ns.reverse).1 ++ [n]) = true ∧
        remove d (ns ++ [n]) = (.ok (), d.erase ((home d.tree ns.reverse).1 ++ [n]))) ∨
      ¬((home d.tree ns.reverse).2 = [] ∧ d.tree.get ((home d.tree ns.reverse).1 ++ [n]) ≠ none ∧
        d.tree.childless ((home d.tree ns.reverse).1 ++ [n]) = true) ∧ ∃ e, remove d (ns ++ [n]) = (.error e, d) := by
  have names := List.reverse_reverse ns
  by_cases whole : (home d.tree ns.reverse).2 = []
  · have parent := dirAt_home whole
    rw [names] at parent
    have way : remove d (ns ++ [n]) =
        if (d.tree.get ((home d.tree ns.reverse).1 ++ [n])).isNone then (.error .noEntry, d)
        else if d.tree.childless ((home d.tree ns.reverse).1 ++ [n]) then (.ok (),
          d.erase ((home d.tree ns.reverse).1 ++ [n]))
        else (.error .notEmpty, d) := by
      rw [remove, resolve_of_dirAt plain parent]
      simp
    rw [way]
    by_cases absent : d.tree.get ((home d.tree ns.reverse).1 ++ [n]) = none
    · rw [absent]
      exact .inr ⟨fun h => h.2.1 rfl, .noEntry, rfl⟩
    · rw [if_neg (by simpa using absent)]
      by_cases leaf : d.tree.childless ((home d.tree ns.reverse).1 ++ [n]) = true
      · exact .inl ⟨whole, absent, leaf, if_pos leaf⟩
      · exact .inr ⟨fun h => leaf h.2.2, .notEmpty, if_neg leaf⟩
  · have parent := not_dirAt_home whole
    rw [names] at parent
    obtain ⟨e, lost⟩ := resolve_of_not_dirAt plain parent false
    exact .inr ⟨fun h => whole h.1, e, by rw [remove, lost]⟩

end Files

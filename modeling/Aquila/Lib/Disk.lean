import Aquila.Lib.Keyed

/-! Files, and programs that work on them. A program makes one system call after the other; each of them can fail,
    and files are written and read piece by piece. -/

/-- Names of files, which are numbered, and what the files hold. -/
structure Disk where
  names : List (List String × Nat) := []
  files : List (List UInt8) := []
deriving DecidableEq, Repr

namespace Disk

abbrev Path := List String

section
variable (d : Disk) (p q : Path) (i : Nat)

def find : Option Nat := (Keyed.get (·.1) d.names p).map (·.2)

def data : List UInt8 := d.files.getD i []

def create : Disk := { names := Keyed.put (·.1) d.names (p, d.files.length), files := d.files ++ [[]] }

def append (b : List UInt8) : Disk := { d with files := d.files.set i (d.data i ++ b) }

def remove : Disk := { d with names := d.names.filter (·.1 ≠ p) }

/-- The file `i` loses the name `p` and gets the name `q`, in place of the file that had it. -/
def rename : Disk := { d with names := Keyed.put (·.1) (d.remove p).names (q, i) }

end

section
variable {d : Disk} {p q r : Path} {i j : Nat} {b : List UInt8}

theorem find_put {names : List (Path × Nat)} :
    (Keyed.get (·.1) (Keyed.put (·.1) names (p, i)) q).map (·.2) = if q = p then some i
    else (Keyed.get (·.1) names q).map (·.2) := by
  by_cases same : q = p
  · subst same
    have put := @Keyed.get_put_self _ _ _ (fun x : Path × Nat => x.1) names (q, i)
    rw [if_pos rfl, put, Option.map_some]
  · rw [if_neg same, Keyed.get_put_of_ne same]

theorem find_create : (d.create p).find q = if q = p then some d.files.length else d.find q := find_put

theorem find_remove : (d.remove p).find q = if q = p then none else d.find q := by
  unfold find remove Keyed.get
  rw [List.find?_filter]
  by_cases same : q = p
  · subst same
    rw [if_pos rfl, List.find?_eq_none.mpr (by simp), Option.map_none]
  · rw [if_neg same]
    congr 2
    funext x
    by_cases h : x.1 = q <;> simp [h, same]

theorem find_rename : (d.rename p q i).find r = if r = q then some i else if r = p then none else d.find r := by
  rw [← find_remove]
  exact find_put

theorem data_create : (d.create p).data i = d.data i := by
  have added : (d.create p).data i = ((d.files ++ [[]])[i]?).getD [] := List.getD_eq_getElem?_getD
  rw [added, data, List.getD_eq_getElem?_getD]
  rcases Nat.lt_or_ge i d.files.length with old | new
  · rw [List.getElem?_append_left old]
  · rw [List.getElem?_append_right new, List.getElem?_eq_none new]
    cases i - d.files.length <;> rfl

theorem data_append (h : i < d.files.length) : (d.append i b).data j = if j = i then d.data i ++ b else d.data j := by
  by_cases same : j = i
  · subst same
    simp [data, append, List.getD_eq_getElem?_getD, h]
  · simp [data, append, List.getD_eq_getElem?_getD, same, Ne.symm same]

end

/-! ### Programs -/

/-- What a call does. The arguments of the rest are what the system call returns: an error, if there is one, or its
    result. -/
inductive Prog (ρ : Type) where
  | ret (r : ρ)
  -- Whether the caller has given up.
  | ask (k : Option String → Prog ρ)
  | stat (p : Path) (k : Bool → Prog ρ)
  | mkdirAll (p : Path) (k : Option String → Prog ρ)
  -- A new file in a directory, whose name starts as given.
  | createTemp (dir : Path) (start : String) (k : Except String (Path × Nat) → Prog ρ)
  | write (i : Nat) (b : List UInt8) (k : Option String → Prog ρ)
  | close (i : Nat) (k : Option String → Prog ρ)
  | rename (p q : Path) (k : Option String → Prog ρ)
  | remove (p : Path) (k : Option String → Prog ρ)
  -- The error is `none` if there is no such file.
  | open_ (p : Path) (k : Except (Option String) Nat → Prog ρ)
  -- The rest of a file of which some is read.
  | read (i : Nat) (got : List UInt8) (k : Except String (List UInt8) → Prog ρ)

namespace Prog
variable {ρ σ : Type}

def bind (f : ρ → Prog σ) : Prog ρ → Prog σ
  | ret r => f r
  | ask k => ask fun e => (k e).bind f
  | stat p k => stat p fun found => (k found).bind f
  | mkdirAll p k => mkdirAll p fun e => (k e).bind f
  | createTemp dir start k => createTemp dir start fun e => (k e).bind f
  | write i b k => write i b fun e => (k e).bind f
  | close i k => close i fun e => (k e).bind f
  | rename p q k => rename p q fun e => (k e).bind f
  | remove p k => remove p fun e => (k e).bind f
  | open_ p k => open_ p fun e => (k e).bind f
  | read i got k => read i got fun e => (k e).bind f

instance : Monad Prog where
  pure := ret
  bind p f := p.bind f

/-- `os.ReadFile`. -/
def readFile (p : Path) : Prog (Except (Option String) (List UInt8)) :=
  open_ p fun
    | .error e => ret (.error e)
    | .ok i => read i [] fun
      | .error e => ret (.error (some e))
      | .ok b => ret (.ok b)

/-- One step of a program, and the name and the file of a renaming. A file is found or not, and apart from that
    every system call may fail. -/
inductive Step : Disk → Prog ρ → Disk → Prog ρ → Option (Path × Nat) → Prop
  | ask {d : Disk} {k} (e) : Step d (.ask k) d (k e) none
  | found {d : Disk} {p k} : (d.find p).isSome → Step d (.stat p k) d (k true) none
  | unfound {d : Disk} {p k} : Step d (.stat p k) d (k false) none
  | mkdirAll {d : Disk} {p k} (e) : Step d (.mkdirAll p k) d (k e) none
  | create {d : Disk} {dir start k} (rest : String) : d.find (dir ++ [start ++ rest]) = none →
      Step d (.createTemp dir start k) (d.create (dir ++ [start ++ rest]))
      (k (.ok (dir ++ [start ++ rest], d.files.length))) none
  | uncreated {d : Disk} {dir start k} (e) : Step d (.createTemp dir start k) d (k (.error e)) none
  | write {d : Disk} {i k} (a b) : Step d (.write i (a ++ b) k) (d.append i a) (.write i b k) none
  | written {d : Disk} {i k} : Step d (.write i [] k) d (k none) none
  | unwritten {d : Disk} {i b k} (e) : Step d (.write i b k) d (k (some e)) none
  | close {d : Disk} {i k} (e) : Step d (.close i k) d (k e) none
  | rename {d : Disk} {p q i k} : d.find p = some i → Step d (.rename p q k) (d.rename p q i) (k none) (some (q, i))
  | unrenamed {d : Disk} {p q k} (e) : Step d (.rename p q k) d (k (some e)) none
  | remove {d : Disk} {p k} : Step d (.remove p k) (d.remove p) (k none) none
  | unremoved {d : Disk} {p k} (e) : Step d (.remove p k) d (k (some e)) none
  | opened {d : Disk} {p i k} : d.find p = some i → Step d (.open_ p k) d (k (.ok i)) none
  | absent {d : Disk} {p k} : d.find p = none → Step d (.open_ p k) d (k (.error none)) none
  | unopened {d : Disk} {p k} (e) : Step d (.open_ p k) d (k (.error (some e))) none
  | read {d : Disk} {i got k} (part) : part <+: (d.data i).drop got.length →
    Step d (.read i got k) d (.read i (got ++ part) k) none
  | done {d : Disk} {i got k} : (d.data i).length ≤ got.length → Step d (.read i got k) d (k (.ok got)) none
  | unread {d : Disk} {i got k} (e) : Step d (.read i got k) d (k (.error e)) none

end Prog

end Disk

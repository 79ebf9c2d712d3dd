import Mathlib.Data.List.Basic
import Mathlib.Data.Rat.Defs
import Mathlib.Data.Rat.Init
import Aquila.Lib.Json
import Aquila.Lib.Utf8
import Aquila.Lib.Values

/-! JSON documents as they are written: numbers are exact decimals, and a string may hold a surrogate without its
    partner. -/

namespace Documents

/-- The code points of a string. A surrogate without its partner is a code point of its own. -/
abbrev Text := List Nat

inductive Document where
  | null
  | bool (b : Bool)
  | num (x : ℚ)
  | str (s : Text)
  | arr (xs : List Document)
  | obj (members : List (Text × Document))

mutual

/-- How deep arrays and objects are nested. -/
def Document.depth : Document → Nat
  | .arr xs => 1 + depthList xs
  | .obj members => 1 + depthMembers members
  | _ => 0

def depthList : List Document → Nat
  | [] => 0
  | d :: ds => max d.depth (depthList ds)

def depthMembers : List (Text × Document) → Nat
  | [] => 0
  | (_, d) :: members => max d.depth (depthMembers members)

end

mutual

def Document.beq : Document → Document → Bool
  | .null, .null => true
  | .bool a, .bool b => a = b
  | .num x, .num y => x = y
  | .str s, .str t => s = t
  | .arr xs, .arr ys => beqList xs ys
  | .obj ms, .obj ns => beqMembers ms ns
  | _, _ => false

def beqList : List Document → List Document → Bool
  | [], [] => true
  | d :: ds, e :: es => d.beq e && beqList ds es
  | _, _ => false

def beqMembers : List (Text × Document) → List (Text × Document) → Bool
  | [], [] => true
  | (k, d) :: ms, (j, e) :: ns => (k = j && d.beq e) && beqMembers ms ns
  | _, _ => false

end

mutual

theorem Document.beq_iff : ∀ {d e : Document}, d.beq e = true ↔ d = e
  | .null, e => by cases e <;> simp [Document.beq]
  | .bool _, e => by cases e <;> simp [Document.beq]
  | .num _, e => by cases e <;> simp [Document.beq]
  | .str _, e => by cases e <;> simp [Document.beq]
  | .arr xs, e => by cases e <;> simp [Document.beq, beqList_iff]
  | .obj ms, e => by cases e <;> simp [Document.beq, beqMembers_iff]

theorem beqList_iff : ∀ {ds es : List Document}, beqList ds es = true ↔ ds = es
  | [], es => by cases es <;> simp [beqList]
  | d :: ds, es => by cases es <;> simp [beqList, Document.beq_iff, beqList_iff]

theorem beqMembers_iff : ∀ {ms ns : List (Text × Document)}, beqMembers ms ns = true ↔ ms = ns
  | [], ns => by cases ns <;> simp [beqMembers]
  | (k, d) :: ms, ns => by cases ns <;> simp [beqMembers, Document.beq_iff, beqMembers_iff, Prod.ext_iff]

end

instance Document.instDecidableEq : DecidableEq Document := fun _ _ => decidable_of_iff _ Document.beq_iff

/-! ### Reading -/

/-- The code points of code units. -/
def points : List Nat → Text
  | [] => []
  | [u] => [u]
  | u :: v :: us =>
    if (0xd800 ≤ u ∧ u < 0xdc00) ∧ 0xdc00 ≤ v ∧
    v < 0xe000 then (0x10000 + (u - 0xd800) * 1024 + (v - 0xdc00)) :: points us
    else u :: points (v :: us)

/-- A string after its opening quote. -/
def readText (cs : List Char) : Option (Text × List Char) :=
  (Json.readUnits cs.length cs).map fun (us, cs) => (points us, cs)

def readDigits (cs : List Char) : Option (List Char × List Char) :=
  if cs.takeWhile Char.isDigit = [] then none else some (cs.takeWhile Char.isDigit, cs.dropWhile Char.isDigit)

def readFraction (cs : List Char) : Option (List Char × List Char) :=
  if cs.head? = some '.' then readDigits cs.tail else some ([], cs)

def readExponent (cs : List Char) : Option (Int × List Char) :=
  if cs.head? = some 'e' ∨ cs.head? = some 'E' then
    let sign := cs.tail.head?
    let cs := if sign = some '-' ∨ sign = some '+' then cs.tail.tail else cs.tail
    (readDigits cs).map fun (digits, cs) =>
      (if sign = some '-' then -(Nat.ofDigitChars 10 digits 0 : Int) else Nat.ofDigitChars 10 digits 0, cs)
  else some (0, cs)

def readNumber (cs : List Char) : Option (ℚ × List Char) :=
  let minus := cs.head? = some '-'
  (readDigits (if minus then cs.tail else cs)).bind fun (whole, cs) =>
    if whole.head? = some '0' ∧ whole ≠ ['0'] then none
    else (readFraction cs).bind fun (fraction, cs) => (readExponent cs).map fun (e, cs) =>
      ((if minus then -1 else 1) * (Nat.ofDigitChars 10 (whole ++ fraction) 0 : ℚ) * 10 ^ (e - fraction.length), cs)

def keywords : List (List Char × Document) :=
  [(['n', 'u', 'l', 'l'], .null), (['t', 'r', 'u', 'e'], .bool true), (['f', 'a', 'l', 's', 'e'], .bool false)]

def readAtom (cs : List Char) : Option (Document × List Char) :=
  match keywords.find? fun (word, _) => word.isPrefixOf cs with
  | some (word, d) => some (d, cs.drop word.length)
  | none => (readNumber cs).map fun (x, cs) => (.num x, cs)

mutual

/-- One document, with at most `n` nested readings. -/
def read : Nat → List Char → Option (Document × List Char)
  | 0, _ => none
  | n + 1, cs =>
    match Json.skip cs with
    | [] => none
    | c :: cs =>
      if c = '"' then (readText cs).map fun (s, cs) => (.str s, cs)
      else if c = '[' then
        match Json.expect ']' cs with
        | some cs => some (.arr [], cs)
        | none => (read n cs).bind fun (d, cs) => (readRest n cs).map fun (ds, cs) => (.arr (d :: ds), cs)
      else if c = '\x7b' then
        match Json.expect '\x7d' cs with
        | some cs => some (.obj [], cs)
        | none => (readMember n cs).bind fun (m, cs) => (readMore n cs).map fun (ms, cs) => (.obj (m :: ms), cs)
      else readAtom (c :: cs)

def readRest : Nat → List Char → Option (List Document × List Char)
  | 0, _ => none
  | n + 1, cs =>
    match Json.expect ',' cs with
    | some cs => (read n cs).bind fun (d, cs) => (readRest n cs).map fun (ds, cs) => (d :: ds, cs)
    | none => (Json.expect ']' cs).map ([], ·)

def readMember : Nat → List Char → Option ((Text × Document) × List Char)
  | 0, _ => none
  | n + 1, cs =>
    (Json.expect '"' cs).bind fun cs => (readText cs).bind fun (key, cs) =>
      (Json.expect ':' cs).bind fun cs => (read n cs).map fun (d, cs) => ((key, d), cs)

def readMore : Nat → List Char → Option (List (Text × Document) × List Char)
  | 0, _ => none
  | n + 1, cs =>
    match Json.expect ',' cs with
    | some cs => (readMember n cs).bind fun (m, cs) => (readMore n cs).map fun (ms, cs) => (m :: ms, cs)
    | none => (Json.expect '\x7d' cs).map ([], ·)

end

/-- The document that bytes are the text of: UTF-8, with nothing after it but blanks. -/
def parse (raw : List UInt8) : Option Document :=
  ((Utf8.runes raw).mapM id).bind fun cs => (read (cs.length + 1) cs).bind fun (d, rest) =>
    if Json.skip rest = [] then some d else none

/-! ### Values -/

section
variable {κ ν : Type} [DecidableEq κ] (f : Text → κ) (g : ℚ → ν) (skip : κ → Bool)

mutual

/-- The value of a document under a reading `f` of strings and keys and a reading `g` of numbers, without the keys
    to skip. Of members with one key the last one counts. -/
def Document.value : Document → Value κ ν
  | .null => .null
  | .bool b => .bool b
  | .num x => .num (g x)
  | .str s => .str (f s)
  | .arr xs => .arr (valueList xs)
  | .obj members => .obj fun key => if skip key then none else valueOf members key

def valueList : List Document → List (Value κ ν)
  | [] => []
  | d :: ds => d.value :: valueList ds

def valueOf : List (Text × Document) → κ → Option (Value κ ν)
  | [], _ => none
  | (k, d) :: members, key => (valueOf members key).or (if f k = key then some d.value else none)

end

/-- The last member with a key that passes. -/
def last (p : Text → Prop) [DecidablePred p] : List (Text × Document) → Option Document
  | [] => none
  | (k, d) :: members => (last p members).or (if p k then some d else none)

theorem valueList_eq_map (ds : List Document) : valueList f g skip ds = ds.map (Document.value f g skip) := by
  induction ds with
  | nil => rfl
  | cons d ds ih => rw [valueList, ih, List.map_cons]

theorem valueOf_eq (members : List (Text × Document)) (key : κ) :
    valueOf f g skip members key = (last (f · = key) members).map (Document.value f g skip) := by
  induction members with
  | nil => rfl
  | cons m members ih =>
    rw [valueOf, last, ih, Option.map_or]
    congr 1
    split_ifs <;> rfl

end

section
variable {members : List (Text × Document)} {p q : Text → Prop} [DecidablePred p] [DecidablePred q]

theorem mem_of_last {d : Document} (h : last p members = some d) : ∃ k, (k, d) ∈ members ∧ p k := by
  induction members with
  | nil => cases h
  | cons m members ih =>
    rw [last] at h
    rcases Option.or_eq_some_iff.mp h with h | ⟨-, h⟩
    · obtain ⟨k, mem, passes⟩ := ih h
      exact ⟨k, List.mem_cons_of_mem _ mem, passes⟩
    · split_ifs at h with passes
      cases h
      exact ⟨m.1, List.mem_cons_self, passes⟩

theorem last_congr (same : ∀ m ∈ members, p m.1 ↔ q m.1) : last p members = last q members := by
  induction members with
  | nil => rfl
  | cons m members ih =>
    obtain ⟨here, later⟩ := List.forall_mem_cons.mp same
    rw [last, last, ih later]
    simp only [here]

end

mutual

/-- All numbers and all strings, keys among them, are from these sets. -/
def Document.Over (N : Set ℚ) (U : Set Text) : Document → Prop
  | .num x => x ∈ N
  | .str s => s ∈ U
  | .arr xs => overList N U xs
  | .obj members => overMembers N U members
  | _ => True

def overList (N : Set ℚ) (U : Set Text) : List Document → Prop
  | [] => True
  | d :: ds => d.Over N U ∧ overList N U ds

def overMembers (N : Set ℚ) (U : Set Text) : List (Text × Document) → Prop
  | [] => True
  | (k, d) :: members => (k ∈ U ∧ d.Over N U) ∧ overMembers N U members

end

section
variable {N : Set ℚ} {U : Set Text}

theorem overList_iff {ds : List Document} : overList N U ds ↔ ∀ d ∈ ds, d.Over N U := by
  induction ds with
  | nil => simp [overList]
  | cons d ds ih => rw [overList, ih, List.forall_mem_cons]

theorem overMembers_iff {members : List (Text × Document)} : overMembers N U members ↔ ∀ m ∈ members, m.1 ∈ U ∧
    m.2.Over N U := by
  induction members with
  | nil => simp [overMembers]
  | cons m members ih => rw [overMembers, ih, List.forall_mem_cons]

theorem map_eq_map_of {α β γ : Type} {f : α → β} {g : α → γ} {as bs : List α}
    (each : ∀ a ∈ as, ∀ b ∈ bs, f a = f b → g a = g b)
    (same : as.map f = bs.map f) : as.map g = bs.map g := by
  induction as generalizing bs with
  | nil => rw [List.map_eq_nil_iff.mp same.symm]
  | cons a as ih =>
    cases bs with
    | nil => cases same
    | cons b bs =>
      obtain ⟨head, tail⟩ := List.cons.inj same
      rw [List.map_cons, List.map_cons, each a List.mem_cons_self b List.mem_cons_self head,
        ih (fun a ha b hb => each a (List.mem_cons_of_mem _ ha) b (List.mem_cons_of_mem _ hb)) tail]

variable {κ ν κ' ν' : Type} [DecidableEq κ] [DecidableEq κ'] {f : Text → κ} {g : ℚ → ν} {skip : κ → Bool} {f' : Text →
  κ'} {g' : ℚ → ν'}
  {skip' : κ' → Bool}

/-- Two documents with the same value under one reading have the same value under another one that tells no more
    apart. -/
theorem value_eq_of_value_eq (texts : ∀ s ∈ U, ∀ t ∈ U, (f s = f t ↔ f' s = f' t))
    (skips : ∀ s ∈ U, skip (f s) = skip' (f' s))
    (numbers : ∀ x ∈ N, ∀ y ∈ N, g x = g y → g' x = g' y) : ∀ {d e : Document}, d.Over N U → e.Over N U →
      d.value f g skip = e.value f g skip → d.value f' g' skip' = e.value f' g' skip'
  | .null, e, _, _, same => by cases e <;> simp_all [Document.value]
  | .bool b, e, _, _, same => by cases e <;> simp_all [Document.value]
  | .num x, .num y, hd, he, same => by
    rw [Document.Over] at hd he
    simp only [Document.value, Value.num.injEq] at same ⊢
    exact numbers x hd y he same
  | .str s, .str t, hd, he, same => by
    rw [Document.Over] at hd he
    simp only [Document.value, Value.str.injEq] at same ⊢
    exact (texts s hd t he).mp same
  | .arr xs, .arr ys, hd, he, same => by
    rw [Document.Over, overList_iff] at hd he
    simp only [Document.value, Value.arr.injEq, valueList_eq_map] at same ⊢
    exact map_eq_map_of (fun x hx y hy => value_eq_of_value_eq texts skips numbers (hd x hx) (he y hy)) same
  | .obj ms, .obj ns, hd, he, same => by
    rw [Document.Over, overMembers_iff] at hd he
    simp only [Document.value, Value.obj.injEq, valueOf_eq, funext_iff] at same ⊢
    intro key
    by_cases skipped : skip' key = true
    · simp only [skipped, if_true]
    by_cases held : ∃ m, (m ∈ ms ∨ m ∈ ns) ∧ f' m.1 = key
    · obtain ⟨m, mem, rfl⟩ := held
      have known : m.1 ∈ U := mem.elim (fun mem => (hd m mem).1) fun mem => (he m mem).1
      have here := same (f m.1)
      have left : last (f · = f m.1) ms = last (f' · = f' m.1) ms := last_congr fun x hx =>
        texts x.1 (hd x hx).1 m.1 known
      have right : last (f · = f m.1) ns = last (f' · = f' m.1) ns := last_congr fun x hx =>
        texts x.1 (he x hx).1 m.1 known
      rw [skips m.1 known, if_neg skipped, if_neg skipped, left, right] at here
      rw [if_neg skipped, if_neg skipped]
      cases first : last (f' · = f' m.1) ms with
      | none =>
        cases second : last (f' · = f' m.1) ns with
        | none => rfl
        | some e => rw [first, second] at here; cases here
      | some d =>
        cases second : last (f' · = f' m.1) ns with
        | none => rw [first, second] at here; cases here
        | some e =>
          obtain ⟨k, inLeft, -⟩ := mem_of_last first
          have smaller : sizeOf d < sizeOf ms := by
            have size := List.sizeOf_lt_of_mem inLeft
            rw [Prod.mk.sizeOf_spec] at size
            omega
          obtain ⟨j, inRight, -⟩ := mem_of_last second
          rw [first, second, Option.map_some, Option.map_some, Option.some.injEq] at here
          rw [Option.map_some, Option.map_some,
            value_eq_of_value_eq texts skips numbers (hd _ inLeft).2 (he _ inRight).2 here]
    · have none' {members : List (Text × Document)} (sub : ∀ m ∈ members, m ∈ ms ∨ m ∈ ns) :
        last (f' · = key) members = none := by
        rw [Option.eq_none_iff_forall_ne_some]
        intro d found
        obtain ⟨k, mem, passes⟩ := mem_of_last found
        exact held ⟨(k, d), sub _ mem, passes⟩
      rw [none' fun m hm => .inl hm, none' fun m hm => .inr hm]
  | .num x, .null, _, _, same | .num x, .bool _, _, _, same | .num x, .str _, _, _, same | .num x, .arr _, _, _, same
  | .num x, .obj _, _, _, same | .str x, .null, _, _, same | .str x, .bool _, _, _, same | .str x, .num _, _, _, same
  | .str x, .arr _, _, _, same | .str x, .obj _, _, _, same | .arr x, .null, _, _, same | .arr x, .bool _, _, _, same
  | .arr x, .num _, _, _, same | .arr x, .str _, _, _, same | .arr x, .obj _, _, _, same | .obj x, .null, _, _, same
  | .obj x, .bool _, _, _, same | .obj x, .num _, _, _, same | .obj x, .str _, _, _, same | .obj x, .arr _,
      _, _, same => by
    simp [Document.value] at same

end

end Documents

import Mathlib.Logic.Equiv.Defs
import Aquila.Lib.Json
import Aquila.Lib.Utf8

/-! Values as JSON documents. A codec is built from the codecs of the parts and carries its laws, so that there is
    none whose reading does not invert its writing. -/

namespace Json
variable {ds : List Doc} {d : Doc}

/-- How the values of a type are written and read. Writing may fail. `null` is read as the zero value. -/
structure Codec (α : Type) where
  zero : α
  toDoc : α → Option Doc
  ofDoc : Doc → Option α
  -- The strings of the value are UTF-8.
  Plain : α → Prop
  plain_iff : ∀ {a d}, toDoc a = some d → (d.holes = 0 ↔ Plain a)
  ofDoc_toDoc : ∀ {a d}, toDoc a = some d → Plain a → ofDoc d = some a
  plain_ofDoc : ∀ {d a}, ofDoc d = some a → Plain a
  plain_zero : Plain zero

/-! ### Texts, numbers and flags -/

theorem count_map_some (cs : List Char) : (cs.map some).count none = 0 := by
  simp [List.count_eq_zero]

/-- Values that are written as a text, when they have one. -/
def Codec.text {α : Type} (zero : α) (format : α → Option String) (parse : String → Option α)
    (parse_format : ∀ {a s}, format a = some s → parse s = some a) : Codec α where
  zero
  toDoc a := (format a).map fun s => .str (s.toList.map some)
  ofDoc
    | .null => some zero
    | .str s => parse (.ofList (scrubText s))
    | _ => none
  Plain _ := True
  plain_iff h := by
    obtain ⟨s, -, rfl⟩ := Option.map_eq_some_iff.mp h
    simp [Doc.holes, count_map_some]
  ofDoc_toDoc h _ := by
    obtain ⟨s, hs, rfl⟩ := Option.map_eq_some_iff.mp h
    simp only [scrubText_some, String.ofList_toList, parse_format hs]
  plain_ofDoc _ := trivial
  plain_zero := trivial

def Codec.string : Codec String := .text "" some some fun h => h.symm

/-- Strings that need not be UTF-8. -/
def Codec.bytes : Codec (List UInt8) where
  zero := []
  toDoc b := some (.str (Utf8.runes b))
  ofDoc
    | .null => some []
    | .str s => some (Utf8.encode (scrubText s))
    | _ => none
  Plain := Utf8.Valid
  plain_iff h := by
    cases h
    exact List.count_eq_zero
  ofDoc_toDoc h valid := by
    obtain ⟨cs, rfl⟩ := valid.exists_encode
    cases h
    simp only [Utf8.runes_encode, scrubText_some]
  plain_ofDoc {d b} h := by
    cases d with
    | null =>
      cases h
      exact Utf8.valid_encode []
    | str s =>
      cases h
      exact Utf8.valid_encode _
    | _ => cases h
  plain_zero := Utf8.valid_encode []

def Codec.int : Codec Int where
  zero := 0
  toDoc n := some (.num n)
  ofDoc
    | .null => some 0
    | .num n => some n
    | _ => none
  Plain _ := True
  plain_iff h := by
    cases h
    simp [Doc.holes]
  ofDoc_toDoc h _ := by
    cases h
    rfl
  plain_ofDoc _ := trivial
  plain_zero := trivial

def Codec.bool : Codec Bool where
  zero := false
  toDoc b := some (.bool b)
  ofDoc
    | .null => some false
    | .bool b => some b
    | _ => none
  Plain _ := True
  plain_iff h := by
    cases h
    simp [Doc.holes]
  ofDoc_toDoc h _ := by
    cases h
    rfl
  plain_ofDoc _ := trivial
  plain_zero := trivial

/-! ### Lists -/

section
variable {α : Type} (c : Codec α)

def writeAll : List α → Option (List Doc)
  | [] => some []
  | a :: as => (c.toDoc a).bind fun d => (writeAll as).map (d :: ·)

def readAll : List Doc → Option (List α)
  | [] => some []
  | d :: ds => (c.ofDoc d).bind fun a => (readAll ds).map (a :: ·)

variable {c}

theorem writeAll_cons {a : α} {as : List α} :
    writeAll c (a :: as) = some ds ↔ ∃ d, c.toDoc a = some d ∧ ∃ ds', writeAll c as = some ds' ∧ d :: ds' = ds := by
  simp only [writeAll, Option.bind_eq_some_iff, Option.map_eq_some_iff]

theorem readAll_cons {as : List α} :
    readAll c (d :: ds) = some as ↔ ∃ a, c.ofDoc d = some a ∧ ∃ as', readAll c ds = some as' ∧ a :: as' = as := by
  simp only [readAll, Option.bind_eq_some_iff, Option.map_eq_some_iff]

theorem readAll_replicate {a : α} (h : c.ofDoc d = some a) (n : Nat) :
    readAll c (List.replicate n d) = some (List.replicate n a) := by
  induction n with
  | zero => rfl
  | succ n ih => exact readAll_cons.mpr ⟨a, h, _, ih, rfl⟩

theorem holes_writeAll {as : List α} (h : writeAll c as = some ds) :
    holesList ds = 0 ↔ ∀ a ∈ as, c.Plain a := by
  induction as generalizing ds with
  | nil =>
    cases h
    simp [holesList]
  | cons a as ih =>
    obtain ⟨d, hd, ds, hds, rfl⟩ := writeAll_cons.mp h
    simp only [holesList, Nat.add_eq_zero_iff, c.plain_iff hd, ih hds, List.forall_mem_cons]

theorem readAll_writeAll {as : List α} (h : writeAll c as = some ds) (plain : ∀ a ∈ as, c.Plain a) :
    readAll c ds = some as := by
  induction as generalizing ds with
  | nil =>
    cases h
    rfl
  | cons a as ih =>
    obtain ⟨d, hd, ds, hds, rfl⟩ := writeAll_cons.mp h
    rw [List.forall_mem_cons] at plain
    rw [readAll, c.ofDoc_toDoc hd plain.1, Option.bind_some, ih hds plain.2, Option.map_some]

theorem plain_readAll {as : List α} (h : readAll c ds = some as) : ∀ a ∈ as, c.Plain a := by
  induction ds generalizing as with
  | nil =>
    cases h
    simp
  | cons d ds ih =>
    obtain ⟨a, ha, as, has, rfl⟩ := readAll_cons.mp h
    exact List.forall_mem_cons.mpr ⟨c.plain_ofDoc ha, ih has⟩

end

/-- Lists. With `nil`, the empty list is written as `null`. -/
def Codec.list {α : Type} (nil : Bool) (c : Codec α) : Codec (List α) where
  zero := []
  toDoc as := (writeAll c as).map fun ds => if nil && ds.isEmpty then .null else .arr ds
  ofDoc
    | .null => some []
    | .arr ds => readAll c ds
    | _ => none
  Plain as := ∀ a ∈ as, c.Plain a
  plain_iff h := by
    obtain ⟨ds, hds, rfl⟩ := Option.map_eq_some_iff.mp h
    have plain := holes_writeAll hds
    split_ifs with empty
    · obtain ⟨-, rfl⟩ : nil = true ∧ ds = [] := by simpa using empty
      exact plain
    · exact plain
  ofDoc_toDoc h plain := by
    obtain ⟨ds, hds, rfl⟩ := Option.map_eq_some_iff.mp h
    have read := readAll_writeAll hds plain
    split_ifs with empty
    · obtain ⟨-, rfl⟩ : nil = true ∧ ds = [] := by simpa using empty
      exact read
    · exact read
  plain_ofDoc {d as} h := by
    cases d with
    | null =>
      cases h
      simp
    | arr ds => exact plain_readAll h
    | _ => cases h
  plain_zero := by simp

/-! ### Records -/

/-- The last value under a name. -/
def get (name : String) (fs : List (String × Doc)) : Option Doc := ((fs.filter (·.1 = name)).getLast?).map (·.2)

theorem get_none {name : String} {fs : List (String × Doc)} (h : ∀ f ∈ fs, f.1 ≠ name) : get name fs = none := by
  have : fs.filter (·.1 = name) = [] := List.filter_eq_nil_iff.mpr fun f hf => by simpa using h f hf
  simp [get, this]

theorem get_between {name : String} {pre fs : List (String × Doc)} (before : ∀ f ∈ pre, f.1 ≠ name)
    (after : ∀ f ∈ fs, f.1 ≠ name) : get name (pre ++ (name, d) :: fs) = some d := by
  have none_ : ∀ {l : List (String × Doc)}, (∀ f ∈ l, f.1 ≠ name) → l.filter (·.1 = name) = [] := fun h =>
    List.filter_eq_nil_iff.mpr fun f hf => by simpa using h f hf
  simp [get, none_ before, none_ after]

/-- The fields of a record, under their names and in order. Their values are one tuple. -/
structure Fields (names : List String) (β : Type) where
  zero : β
  toFields : β → Option (List (String × Doc))
  ofFields : List (String × Doc) → Option β
  Plain : β → Prop
  mem_names : ∀ {b fs}, toFields b = some fs → ∀ f ∈ fs, f.1 ∈ names
  plain_iff : ∀ {b fs}, toFields b = some fs → (holesFields fs = 0 ↔ Plain b)
  -- The fields are found among others, by their names.
  ofFields_toFields : ∀ {b fs pre}, toFields b = some fs → Plain b → (∀ f ∈ pre, f.1 ∉ names) →
    ofFields (pre ++ fs) = some b
  plain_ofFields : ∀ {fs b}, ofFields fs = some b → Plain b
  plain_zero : Plain zero

def Fields.nil : Fields [] Unit where
  zero := ()
  toFields _ := some []
  ofFields _ := some ()
  Plain _ := True
  mem_names h := by
    cases h
    simp
  plain_iff h := by
    cases h
    simp [holesFields]
  ofFields_toFields _ _ _ := rfl
  plain_ofFields _ := trivial
  plain_zero := trivial

section
variable {α β : Type} [DecidableEq α] {name : String} {names : List String} {optional : Bool} {c : Codec α}
  {rest : Fields names β}

/-- A field in front of others. With `optional`, a field with the zero value is not written. -/
def writeField (name : String) (optional : Bool) (c : Codec α) (rest : Fields names β) (a : α) (b : β) :
    Option (List (String × Doc)) :=
  (rest.toFields b).bind fun fs =>
    if optional ∧ a = c.zero then some fs else (c.toDoc a).map fun d => (name, d) :: fs

def readFieldOf (name : String) (c : Codec α) (fs : List (String × Doc)) : Option α :=
  match get name fs with
  | none => some c.zero
  | some d => c.ofDoc d

theorem writeField_cases {a : α} {b : β} {fs : List (String × Doc)}
    (h : writeField name optional c rest a b = some fs) :
    (rest.toFields b = some fs ∧ a = c.zero) ∨
      ∃ d fs', rest.toFields b = some fs' ∧ c.toDoc a = some d ∧ fs = (name, d) :: fs' := by
  obtain ⟨fs', hfs, h⟩ := Option.bind_eq_some_iff.mp h
  split_ifs at h with omitted
  · exact .inl ⟨hfs.trans h, omitted.2⟩
  · obtain ⟨d, hd, rfl⟩ := Option.map_eq_some_iff.mp h
    exact .inr ⟨d, fs', hfs, hd, rfl⟩

end

def Fields.cons {α β : Type} {names : List String} [DecidableEq α] (name : String) (optional : Bool) (c : Codec α)
    (rest : Fields names β) (new : name ∉ names) : Fields (name :: names) (α × β) where
  zero := (c.zero, rest.zero)
  toFields p := writeField name optional c rest p.1 p.2
  ofFields fs := (readFieldOf name c fs).bind fun a => (rest.ofFields fs).map (a, ·)
  Plain p := c.Plain p.1 ∧ rest.Plain p.2
  mem_names {p fs} h f hf := by
    rcases writeField_cases h with ⟨hfs, -⟩ | ⟨d, fs, hfs, -, rfl⟩
    · exact List.mem_cons_of_mem _ (rest.mem_names hfs f hf)
    · rcases List.mem_cons.mp hf with rfl | hf
      · exact List.mem_cons_self
      · exact List.mem_cons_of_mem _ (rest.mem_names hfs f hf)
  plain_iff {p fs} h := by
    rcases writeField_cases h with ⟨hfs, zero⟩ | ⟨d, fs, hfs, hd, rfl⟩
    · simp [rest.plain_iff hfs, zero, c.plain_zero]
    · simp [holesFields, c.plain_iff hd, rest.plain_iff hfs]
  ofFields_toFields {p fs pre} h plain others := by
    have before : ∀ f ∈ pre, f.1 ≠ name := fun f hf e => others f hf (e ▸ List.mem_cons_self)
    have others : ∀ f ∈ pre, f.1 ∉ names := fun f hf mem => others f hf (List.mem_cons_of_mem _ mem)
    have after : ∀ {fs}, rest.toFields p.2 = some fs → ∀ f ∈ fs, f.1 ≠ name :=
      fun hfs f hf e => new (e ▸ rest.mem_names hfs f hf)
    rcases writeField_cases h with ⟨hfs, zero⟩ | ⟨d, fs, hfs, hd, rfl⟩
    · have absent : get name (pre ++ fs) = none :=
        get_none fun f hf => (List.mem_append.mp hf).elim (before f) (after hfs f)
      simp only [readFieldOf, absent, rest.ofFields_toFields hfs plain.2 others, Option.bind_some,
        Option.map_some, ← zero]
    · have shifted : pre ++ (name, d) :: fs = (pre ++ [(name, d)]) ++ fs := by simp
      have tail : rest.ofFields (pre ++ (name, d) :: fs) = some p.2 := by
        rw [shifted]
        refine rest.ofFields_toFields hfs plain.2 fun f hf => ?_
        rcases List.mem_append.mp hf with hf | hf
        · exact others f hf
        · rwa [List.mem_singleton.mp hf]
      simp only [readFieldOf, get_between before (after hfs), c.ofDoc_toDoc hd plain.1, tail, Option.bind_some,
        Option.map_some]
  plain_ofFields {fs p} h := by
    obtain ⟨a, ha, h⟩ := Option.bind_eq_some_iff.mp h
    obtain ⟨b, hb, rfl⟩ := Option.map_eq_some_iff.mp h
    refine ⟨?_, rest.plain_ofFields hb⟩
    unfold readFieldOf at ha
    cases found : get name fs with
    | none =>
      rw [found] at ha
      cases ha
      exact c.plain_zero
    | some d =>
      rw [found] at ha
      exact c.plain_ofDoc ha
  plain_zero := ⟨c.plain_zero, rest.plain_zero⟩

/-- A field that is always written. -/
def Fields.always {α β : Type} {names : List String} [DecidableEq α] (name : String) (c : Codec α)
    (rest : Fields names β) (new : name ∉ names := by decide) : Fields (name :: names) (α × β) :=
  .cons name false c rest new

/-- A field that is written unless it has the zero value. -/
def Fields.nonzero {α β : Type} {names : List String} [DecidableEq α] (name : String) (c : Codec α)
    (rest : Fields names β) (new : name ∉ names := by decide) : Fields (name :: names) (α × β) :=
  .cons name true c rest new

/-- Records, read without unknown fields. -/
def Codec.struct {σ β : Type} {names : List String} (fields : Fields names β) (e : σ ≃ β) : Codec σ where
  zero := e.symm fields.zero
  toDoc s := (fields.toFields (e s)).map .obj
  ofDoc
    | .null => some (e.symm fields.zero)
    | .obj fs => if ∀ f ∈ fs, f.1 ∈ names then (fields.ofFields fs).map e.symm else none
    | _ => none
  Plain s := fields.Plain (e s)
  plain_iff h := by
    obtain ⟨fs, hfs, rfl⟩ := Option.map_eq_some_iff.mp h
    exact fields.plain_iff hfs
  ofDoc_toDoc h plain := by
    obtain ⟨fs, hfs, rfl⟩ := Option.map_eq_some_iff.mp h
    have alone : ∀ f ∈ ([] : List (String × Doc)), f.1 ∉ names := by simp
    have read := fields.ofFields_toFields hfs plain alone
    rw [List.nil_append] at read
    simp only [if_pos (fields.mem_names hfs), read, Option.map_some, Equiv.symm_apply_apply]
  plain_ofDoc {d s} h := by
    cases d with
    | null =>
      cases h
      simpa using fields.plain_zero
    | obj fs =>
      dsimp only at h
      split_ifs at h
      obtain ⟨b, hb, rfl⟩ := Option.map_eq_some_iff.mp h
      simpa using fields.plain_ofFields hb
    | _ => cases h
  plain_zero := by simpa using fields.plain_zero

/-! ### Reading a record -/

section
variable {σ α β : Type} [DecidableEq α] {name : String} {names : List String} {c : Codec α} {rest : Fields names β}
  {fs : List (String × Doc)}
  {a : α} {b : β} {new : name ∉ names}

theorem ofFields_always (field : readFieldOf name c fs = some a) (others : rest.ofFields fs = some b) :
    (Fields.always name c rest new).ofFields fs = some (a, b) := by
  simp only [Fields.always, Fields.cons, field, others, Option.bind_some, Option.map_some]

theorem ofFields_nonzero (field : readFieldOf name c fs = some a) (others : rest.ofFields fs = some b) :
    (Fields.nonzero name c rest new).ofFields fs = some (a, b) := by
  simp only [Fields.nonzero, Fields.cons, field, others, Option.bind_some, Option.map_some]

theorem ofDoc_struct {e : σ ≃ β} (known : ∀ f ∈ fs, f.1 ∈ names) (fields : rest.ofFields fs = some b) :
    (Codec.struct rest e).ofDoc (.obj fs) = some (e.symm b) := by
  simp only [Codec.struct, if_pos known, fields, Option.map_some]

end

/-- A value that may be absent. -/
def Codec.pointer {σ β : Type} {names : List String} (fields : Fields names β) (e : σ ≃ β) : Codec (Option σ) where
  zero := none
  toDoc
    | none => some .null
    | some s => (Codec.struct fields e).toDoc s
  ofDoc
    | .null => some none
    | d => ((Codec.struct fields e).ofDoc d).map some
  Plain o := ∀ s ∈ o, fields.Plain (e s)
  plain_iff {o d} h := by
    cases o with
    | none =>
      cases h
      simp [Doc.holes]
    | some s =>
      have plain : d.holes = 0 ↔ fields.Plain (e s) := (Codec.struct fields e).plain_iff h
      simpa using plain
  ofDoc_toDoc {o d} h plain := by
    cases o with
    | none =>
      cases h
      rfl
    | some s =>
      obtain ⟨fs, hfs, rfl⟩ := Option.map_eq_some_iff.mp h
      exact congrArg (Option.map some) ((Codec.struct fields e).ofDoc_toDoc h (plain s rfl))
  plain_ofDoc {d o} h := by
    cases d with
    | null =>
      cases h
      simp
    | _ =>
      obtain ⟨s, hs, rfl⟩ := Option.map_eq_some_iff.mp h
      rintro t ⟨⟩
      exact (Codec.struct fields e).plain_ofDoc hs
  plain_zero := by simp

/-! ### Plain values -/

section
variable {α β σ : Type} {names : List String}

@[simp] theorem plain_text {zero a : α} {format : α → Option String} {parse : String → Option α}
    {h : ∀ {a s}, format a = some s → parse s = some a} : (Codec.text zero format parse h).Plain a := trivial

@[simp] theorem plain_string {s : String} : Codec.string.Plain s := trivial
@[simp] theorem plain_int {n : Int} : Codec.int.Plain n := trivial
@[simp] theorem plain_bool {b : Bool} : Codec.bool.Plain b := trivial
@[simp] theorem plain_bytes {b : List UInt8} : Codec.bytes.Plain b ↔ Utf8.Valid b := Iff.rfl

@[simp] theorem plain_list {nil : Bool} {c : Codec α} {as : List α} : (Codec.list nil c).Plain as ↔
    ∀ a ∈ as, c.Plain a :=
  Iff.rfl

@[simp] theorem plain_nil {u : Unit} : Fields.nil.Plain u := trivial

@[simp] theorem plain_always [DecidableEq α] {name : String} {c : Codec α} {rest : Fields names β} {new : name ∉ names}
    {p : α × β} : (Fields.always name c rest new).Plain p ↔ c.Plain p.1 ∧ rest.Plain p.2 := Iff.rfl

@[simp] theorem plain_nonzero [DecidableEq α] {name : String} {c : Codec α} {rest : Fields names β} {new : name ∉ names}
    {p : α × β} : (Fields.nonzero name c rest new).Plain p ↔ c.Plain p.1 ∧ rest.Plain p.2 := Iff.rfl

@[simp] theorem plain_struct {fields : Fields names β} {e : σ ≃ β} {s : σ} :
    (Codec.struct fields e).Plain s ↔ fields.Plain (e s) := Iff.rfl

@[simp] theorem plain_pointer {fields : Fields names β} {e : σ ≃ β} {o : Option σ} :
    (Codec.pointer fields e).Plain o ↔ ∀ s ∈ o, fields.Plain (e s) := Iff.rfl

end

/-! ### Values that can always be written -/

def Codec.Writes {α : Type} (c : Codec α) : Prop := ∀ a, ∃ d, c.toDoc a = some d

def Fields.Writes {β : Type} {names : List String} (fields : Fields names β) : Prop :=
  ∀ b, ∃ fs, fields.toFields b = some fs

section
variable {α β σ : Type} {names : List String} {c : Codec α}

theorem writes_nil : Fields.nil.Writes := fun _ => ⟨[], rfl⟩

theorem Fields.Writes.cons [DecidableEq α] {name : String} {optional : Bool} {rest : Fields names β}
    {new : name ∉ names} (writes : c.Writes)
    (others : rest.Writes) : (Fields.cons name optional c rest new).Writes := by
  intro p
  obtain ⟨d, hd⟩ := writes p.1
  obtain ⟨fs, hfs⟩ := others p.2
  by_cases omitted : optional ∧ p.1 = c.zero
  · exact ⟨fs, by simp only [Fields.cons, writeField, hfs, Option.bind_some, if_pos omitted]⟩
  · exact ⟨(name, d) :: fs, by simp only [Fields.cons, writeField, hfs, Option.bind_some, if_neg omitted, hd,
      Option.map_some]⟩

theorem Fields.Writes.struct {fields : Fields names β} (writes : fields.Writes) (e : σ ≃ β) :
    (Codec.struct fields e).Writes := by
  intro s
  obtain ⟨fs, hfs⟩ := writes (e s)
  exact ⟨.obj fs, by simp only [Codec.struct, hfs, Option.map_some]⟩

end

/-! ### Written and read again -/

/-- What is read back of a value that was written, with replacement characters for the bytes that are not UTF-8. -/
def Codec.reread {α : Type} (c : Codec α) (a : α) : α := ((c.toDoc a).bind fun d => c.ofDoc d.scrub).getD a

theorem Codec.reread_of_plain {α : Type} {c : Codec α} {a : α} (plain : c.Plain a) : c.reread a = a := by
  cases h : c.toDoc a with
  | none => simp [Codec.reread, h]
  | some d => simp [Codec.reread, h, Doc.scrub_of_holes ((c.plain_iff h).mpr plain), c.ofDoc_toDoc h plain]

/-- What is left of a value when it is written, and read with replacement characters for the bytes that are not
    UTF-8. -/
structure Codec.Scrubs {α : Type} (c : Codec α) (f : α → α) : Prop where
  read : ∀ {a d}, c.toDoc a = some d → c.ofDoc d.scrub = some (f a)

/-- The same for the fields of a record, which are found among others. -/
structure Fields.Scrubs {β : Type} {names : List String} (fields : Fields names β) (f : β → β) : Prop where
  read : ∀ {b fs pre}, fields.toFields b = some fs → (∀ x ∈ pre, x.1 ∉ names) →
    fields.ofFields (pre ++ scrubFields fs) = some (f b)

theorem scrubFields_eq (fs : List (String × Doc)) : scrubFields fs = fs.map fun x => (x.1, x.2.scrub) := by
  induction fs with
  | nil => rfl
  | cons x fs ih =>
    obtain ⟨name, d⟩ := x
    rw [scrubFields, ih, List.map_cons]

section
variable {α β σ : Type} {names : List String} {c : Codec α} {f : α → α}

theorem scrubs_id (plain : ∀ a, c.Plain a) : c.Scrubs id := by
  refine ⟨fun {a d} h => ?_⟩
  rw [Doc.scrub_of_holes ((c.plain_iff h).mpr (plain a)), c.ofDoc_toDoc h (plain a)]
  rfl

theorem scrubs_bytes : Codec.bytes.Scrubs fun b => Utf8.encode (scrubText (Utf8.runes b)) := by
  refine ⟨fun {b d} h => ?_⟩
  cases h
  simp only [Doc.scrub, Codec.bytes, scrubText_some]

theorem readAll_scrubList (scrubs : c.Scrubs f) {as : List α} (h : writeAll c as = some ds) :
    readAll c (scrubList ds) = some (as.map f) := by
  induction as generalizing ds with
  | nil =>
    cases h
    rfl
  | cons a as ih =>
    obtain ⟨d, hd, ds, hds, rfl⟩ := writeAll_cons.mp h
    exact readAll_cons.mpr ⟨f a, scrubs.read hd, _, ih hds, rfl⟩

theorem Codec.Scrubs.list {nil : Bool} (scrubs : c.Scrubs f) : (Codec.list nil c).Scrubs (List.map f) := by
  refine ⟨fun {as d} h => ?_⟩
  obtain ⟨ds, hds, rfl⟩ := Option.map_eq_some_iff.mp h
  have read := readAll_scrubList scrubs hds
  split_ifs with null
  · obtain rfl : ds = [] := by simpa using (Bool.and_eq_true_iff.mp null).2
    exact read
  · exact read

theorem scrubs_nil : Fields.nil.Scrubs id := ⟨fun _ _ => rfl⟩

theorem Fields.Scrubs.cons [DecidableEq α] {name : String} {optional : Bool} {rest : Fields names β} {g : β → β}
    {new : name ∉ names}
    (scrubs : c.Scrubs f) (zero : f c.zero = c.zero) (others : rest.Scrubs g) :
    (Fields.cons name optional c rest new).Scrubs fun p => (f p.1, g p.2) := by
  refine ⟨fun {p fs pre} h apart => ?_⟩
  have before : ∀ x ∈ pre, x.1 ≠ name := fun x hx e => apart x hx (e ▸ List.mem_cons_self)
  have apart : ∀ x ∈ pre, x.1 ∉ names := fun x hx mem => apart x hx (List.mem_cons_of_mem _ mem)
  have after {fs : List (String × Doc)} (hfs : rest.toFields p.2 = some fs) : ∀ x ∈ scrubFields fs, x.1 ≠ name := by
    intro x hx e
    rw [scrubFields_eq] at hx
    obtain ⟨y, hy, rfl⟩ := List.mem_map.mp hx
    exact new (e ▸ rest.mem_names hfs y hy)
  rcases writeField_cases h with ⟨hfs, isZero⟩ | ⟨d, fs, hfs, hd, rfl⟩
  · have absent : get name (pre ++ scrubFields fs) = none :=
      get_none fun x hx => (List.mem_append.mp hx).elim (before x) (after hfs x)
    simp only [Fields.cons, readFieldOf, absent, others.read hfs apart, Option.bind_some, Option.map_some, isZero, zero]
  · have shifted : pre ++ scrubFields ((name, d) :: fs) = (pre ++ [(name, d.scrub)]) ++
      scrubFields fs := by simp [scrubFields]
    have tail : rest.ofFields (pre ++ scrubFields ((name, d) :: fs)) = some (g p.2) := by
      rw [shifted]
      refine others.read hfs fun x hx => ?_
      rcases List.mem_append.mp hx with hx | hx
      · exact apart x hx
      · rwa [List.mem_singleton.mp hx]
    have field : get name (pre ++ scrubFields ((name, d) :: fs)) = some d.scrub := get_between before (after hfs)
    simp only [Fields.cons, readFieldOf, field, scrubs.read hd, tail, Option.bind_some, Option.map_some]

theorem Fields.Scrubs.struct {fields : Fields names β} {g : β → β} (scrubs : fields.Scrubs g) (e : σ ≃ β) :
    (Codec.struct fields e).Scrubs fun s => e.symm (g (e s)) := by
  refine ⟨fun {s d} h => ?_⟩
  obtain ⟨fs, hfs, rfl⟩ := Option.map_eq_some_iff.mp h
  have read : fields.ofFields ([] ++ scrubFields fs) = some (g (e s)) := scrubs.read hfs (by simp)
  have known : ∀ x ∈ scrubFields fs, x.1 ∈ names := by
    intro x hx
    rw [scrubFields_eq] at hx
    obtain ⟨y, hy, rfl⟩ := List.mem_map.mp hx
    exact fields.mem_names hfs y hy
  exact ofDoc_struct known read

end

end Json

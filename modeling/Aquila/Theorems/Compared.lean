import Aquila.Lib.Lists
import Aquila.Lib.Values
import Aquila.Unmarshal
import Aquila.Theorems.Replay

/-! Comparing replays. Two bodies compare equal exactly if they are read as the same, so that the comparison is an
    equivalence wherever every step was answered. -/

namespace Aquila

/-! ### Values -/

mutual

/-- Every object has each of its keys once, as a map does. -/
def JSON.Keyed : JSON → Prop
  | .arr xs => keyedList xs
  | .obj fields => (fields.map (·.1)).Nodup ∧ keyedFields fields
  | _ => True

def keyedList : List JSON → Prop
  | [] => True
  | v :: vs => v.Keyed ∧ keyedList vs

def keyedFields : List (String × JSON) → Prop
  | [] => True
  | (_, v) :: rest => v.Keyed ∧ keyedFields rest

end

mutual

/-- What a document is, up to the order of the members of its objects. -/
def JSON.value : JSON → Value String Rat
  | .null => .null
  | .bool b => .bool b
  | .num x => .num x
  | .str s => .str s
  | .arr xs => .arr (valueList xs)
  | .obj fields => .obj (valueFields fields)

def valueList : List JSON → List (Value String Rat)
  | [] => []
  | v :: vs => v.value :: valueList vs

def valueFields : List (String × JSON) → String → Option (Value String Rat)
  | [], _ => none
  | (k, v) :: rest, key => if key = k then some v.value else valueFields rest key

end

theorem keyedFields_iff {fields : List (String × JSON)} : keyedFields fields ↔ ∀ p ∈ fields, p.2.Keyed := by
  induction fields with
  | nil => simp [keyedFields]
  | cons p fields ih => rw [keyedFields, ih, List.forall_mem_cons]

theorem valueFields_eq (fields : List (String × JSON)) (key : String) :
    valueFields fields key = (fields.lookup key).map JSON.value := by
  induction fields with
  | nil => rfl
  | cons p fields ih =>
    rw [valueFields, List.lookup_cons]
    by_cases same : key = p.1
    · simp [same]
    · rw [if_neg same, beq_false_of_ne same, ih]

namespace Replay
variable {a b : Observation}

mutual

theorem deepEqual_iff : ∀ {a b : JSON}, a.Keyed → b.Keyed → (deepEqual a b = true ↔ a.value = b.value)
  | .null, b, _, _ => by cases b <;> simp [deepEqual, JSON.value]
  | .bool x, b, _, _ => by cases b <;> simp [deepEqual, JSON.value]
  | .num x, b, _, _ => by cases b <;> simp [deepEqual, JSON.value]
  | .str s, b, _, _ => by cases b <;> simp [deepEqual, JSON.value]
  | .arr xs, .arr ys, ha, hb => by
    rw [JSON.Keyed] at ha hb
    rw [deepEqual, JSON.value, JSON.value, Value.arr.injEq]
    exact deepEqualList_iff ha hb
  | .obj fs, .obj gs, ha, hb => by
    rw [JSON.Keyed] at ha hb
    rw [deepEqual, JSON.value, JSON.value, Value.obj.injEq, Bool.and_eq_true, decide_eq_true_eq,
      deepEqualFields_iff ha.2 hb.2, funext_iff]
    simp only [valueFields_eq]
    exact (Value.forall_lookup_eq_iff JSON.value ha.1 hb.1).symm
  | .arr xs, .null, _, _ | .arr xs, .bool _, _, _ | .arr xs, .num _, _, _ | .arr xs, .str _, _, _ | .arr xs,
    .obj _, _, _ => by
    simp [deepEqual, JSON.value]
  | .obj fs, .null, _, _ | .obj fs, .bool _, _, _ | .obj fs, .num _, _, _ | .obj fs, .str _, _, _ | .obj fs,
    .arr _, _, _ => by
    simp [deepEqual, JSON.value]

theorem deepEqualList_iff : ∀ {as bs : List JSON}, keyedList as → keyedList bs →
    (deepEqualList as bs = true ↔ valueList as = valueList bs)
  | [], [], _, _ => by simp [deepEqualList]
  | [], b :: bs, _, _ => by simp [deepEqualList, valueList]
  | a :: as, [], _, _ => by simp [deepEqualList, valueList]
  | a :: as, b :: bs, ha, hb => by
    rw [keyedList] at ha hb
    rw [deepEqualList, valueList, valueList, Bool.and_eq_true, List.cons.injEq, deepEqual_iff ha.1 hb.1,
      deepEqualList_iff ha.2 hb.2]

theorem deepEqualFields_iff : ∀ {fs gs : List (String × JSON)}, keyedFields fs → keyedFields gs →
    (deepEqualFields fs gs = true ↔ ∀ p ∈ fs, valueFields gs p.1 = some p.2.value)
  | [], gs, _, _ => by simp [deepEqualFields]
  | (k, v) :: fs, gs, hf, hg => by
    rw [keyedFields] at hf
    rw [deepEqualFields, Bool.and_eq_true, List.forall_mem_cons, deepEqualFields_iff hf.2 hg, valueFields_eq]
    refine and_congr_left fun _ => ?_
    cases found : gs.lookup k with
    | none => simp
    | some w =>
      obtain ⟨before, after, split, -⟩ := List.lookup_eq_some_iff.mp found
      have keyed : w.Keyed := keyedFields_iff.mp hg (k, w) (by simp [split])
      rw [Option.map_some, Option.some.injEq, eq_comm (a := w.value)]
      exact deepEqual_iff hf.1 keyed

end

/-! ### Volatile keys -/

theorem map_key_stripFields (fields : List (String × JSON)) :
    (stripFields fields).map (·.1) = (fields.map (·.1)).filter (· ∉ volatileKeys) := by
  induction fields with
  | nil => rfl
  | cons p fields ih =>
    rw [stripFields, List.map_cons]
    by_cases skipped : p.1 ∈ volatileKeys
    · rw [if_pos skipped, ih, List.filter_cons_of_neg (by simpa using skipped)]
    · rw [if_neg skipped, List.map_cons, ih, List.filter_cons_of_pos (by simpa using skipped)]

mutual

theorem stripVolatile_keyed : ∀ {v : JSON}, v.Keyed → (stripVolatile v).Keyed
  | .null, h | .bool _, h | .num _, h | .str _, h => by simpa [stripVolatile] using h
  | .arr xs, h => by
    rw [JSON.Keyed] at h
    rw [stripVolatile, JSON.Keyed]
    exact stripList_keyed h
  | .obj fields, h => by
    rw [JSON.Keyed] at h
    rw [stripVolatile, JSON.Keyed, map_key_stripFields]
    exact ⟨h.1.filter _, stripFields_keyed h.2⟩

theorem stripList_keyed : ∀ {vs : List JSON}, keyedList vs → keyedList (stripList vs)
  | [], _ => by simp [stripList, keyedList]
  | v :: vs, h => by
    rw [keyedList] at h
    rw [stripList, keyedList]
    exact ⟨stripVolatile_keyed h.1, stripList_keyed h.2⟩

theorem stripFields_keyed : ∀ {fields : List (String × JSON)}, keyedFields fields → keyedFields (stripFields fields)
  | [], _ => by simp [stripFields, keyedFields]
  | (k, v) :: fields, h => by
    rw [keyedFields] at h
    rw [stripFields]
    split_ifs
    · exact stripFields_keyed h.2
    · rw [keyedFields]
      exact ⟨stripVolatile_keyed h.1, stripFields_keyed h.2⟩

end

/-! ### Bodies -/

/-- What a decoder puts into an interface value has maps for objects. -/
def Maps (lib : Lib) : Prop := ∀ raw v, lib.unmarshal raw = some v → v.Keyed

/-- What the comparison reads in a body: a value, or bytes that are no document. -/
def reading (lib : Lib) (raw : List UInt8) : Value String Rat ⊕ List UInt8 :=
  match decodeJSON lib raw with
  | some v => .inl (stripVolatile v).value
  | none => .inr (trimSpaceBytes raw)

section
variable {lib : Lib}

theorem Maps.decodeJSON (maps : Maps lib) {raw : List UInt8} {v : JSON}
    (h : decodeJSON lib raw = some v) : v.Keyed := by
  rw [Replay.decodeJSON] at h
  rcases ite_eq_iff.mp h with ⟨-, h⟩ | ⟨-, h⟩
  · cases h
  · exact maps _ v h

theorem jsonNotes_eq_nil_iff (maps : Maps lib) {a b : List UInt8} : jsonNotes lib a b = [] ↔
    reading lib a = reading lib b := by
  rw [jsonNotes, reading, reading]
  cases left : decodeJSON lib a with
  | none =>
    cases right : decodeJSON lib b with
    | none => simp
    | some w => simp
  | some v =>
    cases right : decodeJSON lib b with
    | none => simp
    | some w =>
      have same := deepEqual_iff (stripVolatile_keyed (maps.decodeJSON left))
        (stripVolatile_keyed (maps.decodeJSON right))
      simp [same]

/-! ### Steps -/

/-- An observation whose comparison says nothing about the handler. -/
def Unusable (a b : Observation) : Prop :=
  a.method ≠ b.method ∨ a.path ≠ b.path ∨ a.err ≠ [] ∨ b.err ≠ [] ∨ authStatus a.status = true ∧
    authStatus b.status = true

theorem Unusable.symm (h : Unusable a b) : Unusable b a := by
  rcases h with h | h | h | h | h
  · exact .inl (Ne.symm h)
  · exact .inr (.inl (Ne.symm h))
  · exact .inr (.inr (.inr (.inl h)))
  · exact .inr (.inr (.inl h))
  · exact .inr (.inr (.inr (.inr ⟨h.2, h.1⟩)))

theorem agree_iff (maps : Maps lib) :
    Agree lib a b ↔ ¬Unusable a b ∧ a.status = b.status ∧ reading lib a.body = reading lib b.body := by
  simp only [Unusable, not_or, not_not, not_and, ← jsonNotes_eq_nil_iff maps]
  constructor
  · intro h
    exact ⟨⟨h.method, h.path, h.noErr.1, h.noErr.2, by simpa using h.handled⟩, h.status, h.body⟩
  · rintro ⟨⟨method, path, noErr, noErr', handled⟩, status, body⟩
    exact ⟨method, path, ⟨noErr, noErr'⟩, status, by simpa using handled, body⟩

theorem Agree.symm (maps : Maps lib) (h : Agree lib a b) : Agree lib b a := by
  obtain ⟨usable, status, body⟩ := (agree_iff maps).mp h
  exact (agree_iff maps).mpr ⟨fun h => usable h.symm, status.symm, body.symm⟩

theorem Agree.trans (maps : Maps lib) {c : Observation} (h : Agree lib a b) (h' : Agree lib b c) : Agree lib a c := by
  obtain ⟨-, status, body⟩ := (agree_iff maps).mp h
  obtain ⟨-, status', body'⟩ := (agree_iff maps).mp h'
  refine ⟨h.method.trans h'.method, h.path.trans h'.path, ⟨h.noErr.1, h'.noErr.2⟩, status.trans status', ?_, ?_⟩
  · rw [← status', ← status]
    have handled := h.handled
    rwa [← status] at handled
  · exact (jsonNotes_eq_nil_iff maps).mpr (body.trans body')

theorem Agree.refl (maps : Maps lib) (noErr : a.err = []) (handled : authStatus a.status = false) : Agree lib a a :=
  ⟨rfl, rfl, ⟨noErr, noErr⟩, rfl, by simp [handled], (jsonNotes_eq_nil_iff maps).mpr rfl⟩

end

/-! ### Replays -/

section
variable {lib : Lib} {x y z : Result}

/-- Replays that cannot be compared step by step. -/
def Incomplete (x y : Result) : Prop :=
  x.steps.length ≠ y.steps.length ∨ ∃ (i : Nat) (a b : Observation), x.steps[i]? = some a ∧
    y.steps[i]? = some b ∧ Unusable a b

theorem Incomplete.symm (h : Incomplete x y) : Incomplete y x := by
  refine h.imp Ne.symm ?_
  rintro ⟨i, a, b, left, right, unusable⟩
  exact ⟨i, b, a, right, left, unusable.symm⟩

theorem jsonNotes_error (a b : List UInt8) :
    ((jsonNotes lib a b).map bytes).any ((bytes "error:").isPrefixOf ·) = false := by
  rw [jsonNotes]
  cases decodeJSON lib a with
  | none =>
    cases decodeJSON lib b with
    | none =>
      dsimp only
      split_ifs <;> decide
    | some w =>
      dsimp only
      decide
  | some v =>
    cases decodeJSON lib b with
    | none =>
      dsimp only
      decide
    | some w =>
      dsimp only
      split_ifs <;> decide

theorem compareObs_incomplete_iff (a b : Observation) : (compareObs lib a b).status = verdictIncomplete ↔
    Unusable a b := by
  have differ_ne : verdictDiffer ≠ verdictIncomplete := by decide
  have match_ne : verdictMatch ≠ verdictIncomplete := by decide
  rw [compareObs_status, Unusable]
  split_ifs with incomplete differ
  · simp only [true_iff]
    rw [Bool.and_eq_true] at incomplete
    tauto
  · simp only [differ_ne, false_iff]
    rw [Bool.and_eq_true] at incomplete
    tauto
  · simp only [match_ne, false_iff]
    rw [Bool.and_eq_true] at incomplete
    tauto

theorem compareObs_notes (usable : ¬Unusable a b) :
    (compareObs lib a b).notes = (if a.status ≠ b.status then [bytes "status"] else []) ++
    (jsonNotes lib a.body b.body).map bytes := by
  simp only [Unusable, not_or, not_not] at usable
  obtain ⟨method, path, noErr, noErr', handled⟩ := usable
  have refused : ¬(authStatus a.status && authStatus b.status) = true := by simpa using handled
  simp only [compareObs, method, path, noErr, noErr', ne_eq, not_true_eq_false, or_self, if_false, refused]
  by_cases same : a.status = b.status <;> by_cases body : jsonNotes lib a.body b.body = [] <;> simp [same, body]

theorem incomplete_iff : (compare lib x y).verdict = verdictIncomplete ↔ Incomplete x y := by
  have step (a b : Observation) : ((compareObs lib a b).notes.any ((bytes "error:").isPrefixOf ·) = true ∨
      (compareObs lib a b).status = verdictIncomplete) ↔ Unusable a b := by
    rw [compareObs_incomplete_iff]
    refine or_iff_right_of_imp fun noted => ?_
    by_contra usable
    rw [compareObs_notes usable, List.any_append, jsonNotes_error, Bool.or_false] at noted
    split_ifs at noted <;> exact absurd noted (by decide)
  have flag : (compare lib x y).verdict = verdictIncomplete ↔
      x.steps.length ≠ y.steps.length ∨ ∃ d ∈ List.zipWith (compareObs lib) x.steps y.steps,
        d.notes.any ((bytes "error:").isPrefixOf ·) = true ∨ d.status = verdictIncomplete := by
    rw [compare]
    dsimp only
    split_ifs with incomplete differ
    · simpa using incomplete
    · refine iff_of_false (by decide) ?_
      simpa using incomplete
    · refine iff_of_false (by decide) ?_
      simpa using incomplete
  rw [flag, Incomplete]
  refine or_congr_right ?_
  constructor
  · rintro ⟨d, mem, bad⟩
    obtain ⟨i, hi, rfl⟩ := List.mem_iff_getElem.mp mem
    rw [List.length_zipWith] at hi
    rw [List.getElem_zipWith] at bad
    exact ⟨i, _, _, List.getElem?_eq_getElem (by omega), List.getElem?_eq_getElem (by omega), (step _ _).mp bad⟩
  · rintro ⟨i, a, b, left, right, unusable⟩
    refine ⟨compareObs lib a b, List.mem_of_getElem? (i := i) ?_, (step a b).mpr unusable⟩
    rw [List.getElem?_zipWith, left, right]

theorem match_iff : (compare lib x y).verdict = verdictMatch ↔ List.Forall₂ (Agree lib) x.steps y.steps := by
  refine ⟨compare_match, fun agree => ?_⟩
  have complete : (compare lib x y).verdict ≠ verdictIncomplete := by
    rw [Ne, incomplete_iff, Incomplete, not_or, not_not]
    refine ⟨agree.length_eq, ?_⟩
    rintro ⟨i, a, b, left, right, unusable⟩
    obtain ⟨b', right', here⟩ := Lists.forall₂_getElem? agree left
    cases right.symm.trans right'
    exact absurd ((compareObs_match_iff lib a b).mpr here)
      (by rw [(compareObs_incomplete_iff a b).mpr unusable]; decide)
  have same : ¬(List.zipWith (compareObs lib) x.steps y.steps).any (fun d => d.status = verdictDiffer) = true := by
    intro differ
    obtain ⟨d, mem, status⟩ := List.any_eq_true.mp differ
    obtain ⟨i, hi, rfl⟩ := List.mem_iff_getElem.mp mem
    rw [List.length_zipWith] at hi
    rw [List.getElem_zipWith, decide_eq_true_eq] at status
    obtain ⟨b, right, here⟩ := Lists.forall₂_getElem? agree
      (List.getElem?_eq_getElem (show i < x.steps.length by omega))
    rw [List.getElem?_eq_getElem (show i < y.steps.length by omega)] at right
    cases right
    rw [(compareObs_match_iff lib _ _).mpr here] at status
    exact absurd status (by decide)
  rw [compare] at complete ⊢
  dsimp only at complete ⊢
  rw [if_neg same] at complete ⊢
  exact if_neg fun incomplete => complete (if_pos incomplete)

theorem verdict_cases (lib : Lib) (x y : Result) : (compare lib x y).verdict = verdictIncomplete ∨
    (compare lib x y).verdict = verdictMatch ∨ (compare lib x y).verdict = verdictDiffer := by
  rw [compare]
  dsimp only
  split_ifs
  · exact .inl rfl
  · exact .inr (.inr rfl)
  · exact .inr (.inl rfl)

theorem verdict_symm (maps : Maps lib) : (compare lib x y).verdict = (compare lib y x).verdict := by
  have same {x y : Result} (h : (compare lib x y).verdict = verdictMatch) : (compare lib y x).verdict = verdictMatch :=
    match_iff.mpr ((match_iff.mp h).flip.imp fun _ _ agree => agree.symm maps)
  have incomplete {x y : Result} (h : (compare lib x y).verdict = verdictIncomplete) :
    (compare lib y x).verdict = verdictIncomplete :=
    incomplete_iff.mpr (incomplete_iff.mp h).symm
  rcases verdict_cases lib x y with h | h | h
  · rw [h, incomplete h]
  · rw [h, same h]
  · rcases verdict_cases lib y x with h' | h' | h'
    · rw [incomplete h', h']
    · rw [same h', h']
    · rw [h, h']

end

/-- Comparing is symmetric and transitive, and reflexive on replays whose steps were all answered; it is incomplete
    exactly if the steps do not belong together, failed or were refused on both sides. -/
theorem compare_laws (lib : Lib) (maps : Maps lib) (x y z : Result) :
    (compare lib x y).verdict = (compare lib y x).verdict ∧
    ((compare lib x y).verdict = verdictIncomplete ↔ Incomplete x y) ∧
    ((compare lib x y).verdict = verdictMatch → (compare lib y z).verdict = verdictMatch →
      (compare lib x z).verdict = verdictMatch) ∧
    ((∀ s ∈ x.steps, s.err = [] ∧ authStatus s.status = false) → (compare lib x x).verdict = verdictMatch) := by
  refine ⟨verdict_symm maps, incomplete_iff, fun first second => ?_, fun answered => ?_⟩
  · exact match_iff.mpr (Lists.forall₂_trans (match_iff.mp first) (match_iff.mp second) fun _ _ _ h h' =>
      h.trans maps h')
  · exact match_iff.mpr (List.forall₂_same.mpr fun s hs => .refl maps (answered s hs).1 (answered s hs).2)

/-! ### Maps -/

section
open Documents (Document Text)
open Unmarshal

mutual

theorem decode_keyed : ∀ {d : Document} {v : JSON}, decode d = some v → v.Keyed
  | .null, v, h | .bool _, v, h | .str _, v, h => by
    rw [decode, Option.some.injEq] at h
    rw [← h, JSON.Keyed] <;> simp
  | .num x, v, h => by
    rw [decode] at h
    obtain ⟨y, -, rfl⟩ := Option.map_eq_some_iff.mp h
    simp [JSON.Keyed]
  | .arr xs, v, h => by
    rw [decode] at h
    obtain ⟨vs, ok, rfl⟩ := Option.map_eq_some_iff.mp h
    rw [JSON.Keyed]
    exact decodeList_keyed ok
  | .obj members, v, h => by
    rw [decode] at h
    obtain ⟨fields, ok, rfl⟩ := Option.map_eq_some_iff.mp h
    rw [JSON.Keyed]
    exact decodeMembers_keyed ok

theorem decodeList_keyed : ∀ {ds : List Document} {vs : List JSON}, decodeList ds = some vs → keyedList vs
  | [], vs, h => by
    rw [decodeList, Option.some.injEq] at h
    rw [← h, keyedList]
    trivial
  | d :: ds, vs, h => by
    rw [decodeList] at h
    obtain ⟨v, here, h⟩ := Option.bind_eq_some_iff.mp h
    obtain ⟨rest, later, rfl⟩ := Option.map_eq_some_iff.mp h
    rw [keyedList]
    exact ⟨decode_keyed here, decodeList_keyed later⟩

theorem decodeMembers_keyed : ∀ {members : List (Text × Document)} {fields : List (String × JSON)},
    decodeMembers members = some fields → (fields.map (·.1)).Nodup ∧ keyedFields fields
  | [], fields, h => by
    rw [decodeMembers, Option.some.injEq] at h
    rw [← h, keyedFields]
    simp
  | (k, d) :: members, fields, h => by
    rw [decodeMembers] at h
    obtain ⟨v, here, h⟩ := Option.bind_eq_some_iff.mp h
    obtain ⟨rest, later, rfl⟩ := Option.map_eq_some_iff.mp h
    have keyed := decodeMembers_keyed later
    split_ifs with known
    · exact keyed
    · rw [List.map_cons, List.nodup_cons, keyedFields]
      exact ⟨⟨known, keyed.1⟩, decode_keyed here, keyed.2⟩

end

theorem maps_json : Maps Lib.json := by
  intro raw v h
  obtain ⟨d, -, h⟩ := Option.bind_eq_some_iff.mp h
  rcases ite_eq_iff.mp h with ⟨-, h⟩ | ⟨-, h⟩
  · exact decode_keyed h
  · cases h

end

def answered (body : List UInt8) : Result :=
  { target := "", steps := [{ method := "GET", path := "/", status := 200, body }] }

namespace Sample

def idFirst : Result := answered (bytes "\x7b\"id\":\"a\",\"ok\":true\x7d")
def noID : Result := answered (bytes "\x7b\"ok\":true\x7d")
def idLast : Result := answered (bytes "\x7b\"ok\":true,\"id\":\"b\"\x7d")

end Sample

/-- Bodies that differ in the order of their members and in a volatile one. -/
theorem compare_laws_members : (compare Lib.json Sample.idFirst Sample.noID).verdict = verdictMatch ∧
    (compare Lib.json Sample.noID Sample.idLast).verdict = verdictMatch ∧
    (compare Lib.json Sample.idFirst Sample.idLast).verdict = verdictMatch := by
  have first : (compare Lib.json Sample.idFirst Sample.noID).verdict = verdictMatch := by decide +kernel
  have second : (compare Lib.json Sample.noID Sample.idLast).verdict = verdictMatch := by decide +kernel
  exact ⟨first, second, (compare_laws Lib.json maps_json _ _ _).2.2.1 first second⟩

end Replay
end Aquila

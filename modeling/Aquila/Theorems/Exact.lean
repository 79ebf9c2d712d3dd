import Aquila.Theorems.Compared

/-! What a match says about the documents that were sent: they are equal as far as rounding and replacing tell
    documents apart. -/

namespace Aquila.Replay
open Documents (Document Text)
open Unmarshal
variable {lib : Lib} {body : List UInt8} {d : Document}

/-! ### Documents -/

/-- The decoder is that of `encoding/json` on documents, and stores objects in maps. -/
structure Unmarshals (lib : Lib) : Prop where
  maps : Maps lib
  documents : ∀ raw d, Documents.parse raw = some d → lib.unmarshal raw = unmarshal raw

/-- The document that a body is, but for blanks around it. -/
def document (body : List UInt8) : Option Document := Documents.parse (trimSpaceBytes body)

def volatile (key : String) : Bool := key ∈ volatileKeys

def volatileText (key : Text) : Bool := key ∈ volatileKeys.map fun k => k.toList.map Char.toNat

/-- The value of a document without its volatile keys, exact to the last digit. -/
def exactValue (d : Document) : Value Text ℚ := d.value id id volatileText

/-- The number that is stored for a number, itself if there is none. -/
def roundedNumber (x : ℚ) : ℚ := (Float64.nearest x).getD x

/-! ### Strings -/

theorem toNat_scalar {u : Nat} (plain : Json.scalar u ≠ Json.replacement) : (Json.scalar u).toNat = u := by
  rw [Json.scalar] at plain ⊢
  split_ifs at plain ⊢ with valid
  · rw [Char.ofNat, dif_pos valid]
    rfl
  · exact absurd rfl plain

theorem stored_eq_iff {s : Text} {k : String} (plain : Json.replacement ∉ k.toList) : stored s = k ↔
    s = k.toList.map Char.toNat := by
  rw [stored, ← String.toList_inj, String.toList_ofList]
  constructor
  · intro same
    rw [← same, List.map_map]
    refine (List.map_id _).symm.trans (List.map_congr_left fun u hu => ?_)
    refine (toNat_scalar fun replaced => plain ?_).symm
    rw [← same, ← replaced]
    exact List.mem_map_of_mem hu
  · rintro rfl
    rw [List.map_map]
    refine (List.map_congr_left fun c _ => ?_).trans (List.map_id _)
    exact Json.scalar_toNat c

theorem volatile_stored (s : Text) : volatile (stored s) = volatileText s := by
  have plain : ∀ k ∈ volatileKeys, Json.replacement ∉ k.toList := by decide
  rw [volatile, volatileText, decide_eq_decide, List.mem_map]
  constructor
  · intro mem
    exact ⟨_, mem, ((stored_eq_iff (plain _ mem)).mp rfl).symm⟩
  · rintro ⟨k, hk, rfl⟩
    rwa [(stored_eq_iff (plain k hk)).mpr rfl]

/-! ### What is decoded -/

theorem valueFields_stripFields_eq_none_iff {fields : List (String × JSON)} {key : String} :
    valueFields (stripFields fields) key = none ↔ key ∉ fields.map (·.1) ∨ volatile key = true := by
  rw [valueFields_eq, Option.map_eq_none_iff, Value.lookup_eq_none_iff, map_key_stripFields, List.mem_filter,
    not_and_or, volatile]
  simp

mutual

/-- The stored value is the value of the document with rounded numbers and stored strings. -/
theorem value_decode : ∀ {d : Document} {v : JSON}, decode d = some v →
    (stripVolatile v).value = d.value stored roundedNumber volatile
  | .null, v, h | .bool _, v, h | .str _, v, h => by
    rw [decode, Option.some.injEq] at h
    rw [← h]
    simp [stripVolatile, JSON.value, Document.value]
  | .num x, v, h => by
    rw [decode] at h
    obtain ⟨y, rounded, rfl⟩ := Option.map_eq_some_iff.mp h
    simp [stripVolatile, JSON.value, Document.value, roundedNumber, rounded]
  | .arr xs, v, h => by
    rw [decode] at h
    obtain ⟨vs, ok, rfl⟩ := Option.map_eq_some_iff.mp h
    rw [stripVolatile, JSON.value, Document.value, value_decodeList ok]
  | .obj members, v, h => by
    rw [decode] at h
    obtain ⟨fields, ok, rfl⟩ := Option.map_eq_some_iff.mp h
    rw [stripVolatile, JSON.value, Document.value]
    exact congrArg Value.obj (funext (value_decodeMembers ok))

theorem value_decodeList : ∀ {ds : List Document} {vs : List JSON}, decodeList ds = some vs →
    valueList (stripList vs) = Documents.valueList stored roundedNumber volatile ds
  | [], vs, h => by
    rw [decodeList, Option.some.injEq] at h
    rw [← h, stripList, valueList, Documents.valueList]
  | d :: ds, vs, h => by
    rw [decodeList] at h
    obtain ⟨v, here, h⟩ := Option.bind_eq_some_iff.mp h
    obtain ⟨rest, later, rfl⟩ := Option.map_eq_some_iff.mp h
    rw [stripList, valueList, Documents.valueList, value_decode here, value_decodeList later]

theorem value_decodeMembers : ∀ {members : List (Text × Document)} {fields : List (String × JSON)},
    decodeMembers members = some fields → ∀ key, valueFields (stripFields fields) key =
      if volatile key then none else Documents.valueOf stored roundedNumber volatile members key
  | [], fields, h, key => by
    rw [decodeMembers, Option.some.injEq] at h
    rw [← h, stripFields, valueFields, Documents.valueOf, ite_self]
  | (k, d) :: members, fields, h, key => by
    rw [decodeMembers] at h
    obtain ⟨v, here, h⟩ := Option.bind_eq_some_iff.mp h
    obtain ⟨rest, later, rfl⟩ := Option.map_eq_some_iff.mp h
    have old := value_decodeMembers later key
    by_cases skipped : volatile key = true
    · rw [if_pos skipped]
      exact valueFields_stripFields_eq_none_iff.mpr (.inr skipped)
    rw [if_neg skipped] at old ⊢
    rw [Documents.valueOf]
    by_cases same : stored k = key
    · subst same
      rw [if_pos rfl]
      split_ifs with known
      · obtain ⟨w, found⟩ := Option.ne_none_iff_exists'.mp fun none =>
          (valueFields_stripFields_eq_none_iff.mp none).elim (absurd known) (absurd · skipped)
        rw [← old, found]
        rfl
      · have new := valueFields_stripFields_eq_none_iff.mpr (.inl known)
        rw [← old, new, stripFields, if_neg (by simpa [volatile] using skipped), valueFields, if_pos rfl,
          value_decode here]
        rfl
    · rw [if_neg same, Option.or_none, ← old]
      split_ifs
      · rfl
      · rw [stripFields]
        split_ifs
        · rfl
        · rw [valueFields, if_neg (Ne.symm same)]

end

/-! ### Matches -/

/-- Rounding tells the numbers of a set apart. -/
def NumbersApart (N : Set ℚ) : Prop :=
  ∀ x ∈ N, ∀ y ∈ N, ∀ z, Float64.nearest x = some z → Float64.nearest y = some z → x = y

/-- Storing tells the strings of a set apart. -/
def TextsApart (U : Set Text) : Prop := ∀ s ∈ U, ∀ t ∈ U, stored s = stored t → s = t

/-- The bodies that are documents have their numbers and strings from these sets. -/
def OverBodies (N : Set ℚ) (U : Set Text) (r : Result) : Prop :=
  ∀ s ∈ r.steps, ∀ d, document s.body = some d → d.Over N U

section
variable {N : Set ℚ} {U : Set Text}

theorem roundedNumber_inj (apart : NumbersApart N) : ∀ x ∈ N, ∀ y ∈ N, roundedNumber x = roundedNumber y → x = y := by
  -- A number without a nearest one is not of the format, so no other number is rounded to it.
  have unlike {x y : ℚ} (none' : Float64.nearest x = none) (same : Float64.nearest y = some x) : False := by
    rw [Float64.nearest_of_isFloat (Float64.isFloat_of_nearest same)] at none'
    cases none'
  intro x hx y hy same
  rw [roundedNumber, roundedNumber] at same
  cases left : Float64.nearest x with
  | none =>
    rw [left, Option.getD_none] at same
    cases right : Float64.nearest y with
    | none => rwa [right, Option.getD_none] at same
    | some z =>
      rw [right, Option.getD_some] at same
      exact (unlike left (same ▸ right)).elim
  | some w =>
    rw [left, Option.getD_some] at same
    cases right : Float64.nearest y with
    | none =>
      rw [right, Option.getD_none] at same
      exact (unlike right (same ▸ left)).elim
    | some z =>
      rw [right, Option.getD_some] at same
      exact apart x hx y hy z (same ▸ left) right

theorem decodeJSON_of_document (reads : Unmarshals lib) (h : document body = some d) :
    decodeJSON lib body = if d.depth ≤ maxNestingDepth then decode d else none := by
  have some' : trimSpaceBytes body ≠ [] := by
    intro empty
    rw [document, empty] at h
    cases h
  rw [decodeJSON, if_neg some', reads.documents _ d h, unmarshal]
  rw [document] at h
  rw [h]
  rfl

theorem exact_of_reading (reads : Unmarshals lib) (numbers : NumbersApart N) (texts : TextsApart U) {a b : List UInt8}
    {e : Document} (first : document a = some d) (second : document b = some e) (hd : d.Over N U) (he : e.Over N U)
    (same : reading lib a = reading lib b) : exactValue d = exactValue e := by
  rw [reading, reading] at same
  cases left : decodeJSON lib a with
  | none =>
    cases right : decodeJSON lib b with
    | none =>
      rw [left, right, Sum.inr.injEq] at same
      rw [document, same] at first
      rw [document] at second
      rw [Option.some.inj (first.symm.trans second)]
    | some w => rw [left, right] at same; cases same
  | some v =>
    cases right : decodeJSON lib b with
    | none => rw [left, right] at same; cases same
    | some w =>
      rw [left, right, Sum.inl.injEq] at same
      rw [decodeJSON_of_document reads first] at left
      rw [decodeJSON_of_document reads second] at right
      have decoded := (ite_eq_iff.mp left).resolve_right (by simp)
      have decoded' := (ite_eq_iff.mp right).resolve_right (by simp)
      rw [value_decode decoded.2, value_decode decoded'.2] at same
      exact Documents.value_eq_of_value_eq (fun s hs t ht => ⟨texts s hs t ht, congrArg stored⟩)
        (fun s _ => volatile_stored s)
        (roundedNumber_inj numbers) hd he same

theorem match_answered (maps : Maps lib) {a b : List UInt8} :
    (compare lib (answered a) (answered b)).verdict = verdictMatch ↔ reading lib a = reading lib b := by
  rw [match_iff, answered, answered, List.forall₂_cons, ← jsonNotes_eq_nil_iff maps]
  constructor
  · intro h
    exact h.1.body
  · intro body
    exact ⟨⟨rfl, rfl, ⟨rfl, rfl⟩, rfl, by simp [authStatus], body⟩, .nil⟩

theorem overBodies_answered (h : document body = some d) (over' : d.Over N U) :
    OverBodies N U (answered body) := by
  intro s hs e he
  rw [List.mem_singleton.mp hs] at he
  rwa [← Option.some.inj (h.symm.trans he)]

theorem reading_scalar (reads : Unmarshals lib) {v : JSON} (h : document body = some d)
    (flat : d.depth = 0) (decoded : decode d = some v) : reading lib body = .inl (stripVolatile v).value := by
  rw [reading, decodeJSON_of_document reads h, if_pos (by rw [flat]; exact Nat.zero_le _), decoded]

end

/-- A match means equal documents exactly if rounding tells the numbers of the bodies apart, and storing their
    strings. -/
theorem match_exact_iff (lib : Lib) (reads : Unmarshals lib) (N : Set ℚ) (U : Set Text)
    (numbers : ∀ x ∈ N, ∃ body, document body = some (.num x))
    (texts : ∀ s ∈ U, ∃ body, document body = some (.str s)) :
    (∀ b p, OverBodies N U b → OverBodies N U p → (compare lib b p).verdict = verdictMatch →
      ∀ (i : Nat) x y d e, b.steps[i]? = some x → p.steps[i]? = some y → document x.body = some d →
      document y.body = some e →
        exactValue d = exactValue e) ↔ NumbersApart N ∧ TextsApart U := by
  constructor
  · intro sound
    have same {body body' : List UInt8} {d e : Document} (first : document body = some d)
      (second : document body' = some e)
        (over' : d.Over N U) (over'' : e.Over N U) (read : reading lib body = reading lib body') :
          exactValue d = exactValue e :=
      sound _ _ (overBodies_answered first over') (overBodies_answered second over'')
        ((match_answered reads.maps).mpr read) 0 _ _ d e rfl rfl
        first second
    constructor
    · intro x hx y hy z left right
      obtain ⟨body, first⟩ := numbers x hx
      obtain ⟨body', second⟩ := numbers y hy
      have read := reading_scalar reads first (by simp [Document.depth]) (by rw [decode, left, Option.map_some])
      have read' := reading_scalar reads second (by simp [Document.depth]) (by rw [decode, right, Option.map_some])
      have equal := same first second (by rwa [Document.Over]) (by rwa [Document.Over]) (read.trans read'.symm)
      simpa [exactValue, Document.value] using equal
    · intro s hs t ht stored'
      obtain ⟨body, first⟩ := texts s hs
      obtain ⟨body', second⟩ := texts t ht
      have read := reading_scalar reads first (by simp [Document.depth]) (by rw [decode])
      have read' := reading_scalar reads second (by simp [Document.depth]) (by rw [decode])
      rw [stored'] at read
      have equal := same first second (by rwa [Document.Over]) (by rwa [Document.Over]) (read.trans read'.symm)
      simpa [exactValue, Document.value] using equal
  · rintro ⟨apart, apart'⟩ b p hb hp matched i x y d e left right first second
    obtain ⟨y', right', agree⟩ := Lists.forall₂_getElem? (match_iff.mp matched) left
    cases right.symm.trans right'
    have read := (jsonNotes_eq_nil_iff reads.maps).mp agree.body
    exact exact_of_reading reads apart apart' first second (hb x (List.mem_of_getElem? left) d first)
      (hp y (List.mem_of_getElem? right) e second) read

theorem unmarshals_json : Unmarshals Lib.json := ⟨maps_json, fun _ _ _ => rfl⟩

namespace Sample

def withID : List UInt8 := bytes "\x7b\"id\":7,\"n\":1.5\x7d"
def withoutID : List UInt8 := bytes "\x7b\"n\":15e-1\x7d"

def idText : Text := [105, 100]
def nText : Text := [110]

theorem numbersApart : NumbersApart {7, 3 / 2} := by
  have seven : Float64.nearest 7 = some 7 := by decide +kernel
  have half : Float64.nearest (3 / 2) = some (3 / 2) := by decide +kernel
  intro x hx y hy z left right
  simp only [Set.mem_insert_iff, Set.mem_singleton_iff] at hx hy
  rcases hx with rfl | rfl <;> rcases hy with rfl | rfl <;> simp_all

theorem textsApart : TextsApart {idText, nText} := by
  intro s hs t ht same
  simp only [Set.mem_insert_iff, Set.mem_singleton_iff] at hs ht
  rcases hs with rfl | rfl <;> rcases ht with rfl | rfl <;> first | rfl | exact absurd same (by decide)

end Sample

theorem match_exact_members : (compare Lib.json (answered Sample.withID) (answered Sample.withoutID)).verdict =
    verdictMatch ∧ exactValue (.obj [(Sample.idText, .num 7), (Sample.nText, .num (3 / 2))]) = exactValue
    (.obj [(Sample.nText, .num (3 / 2))]) := by
  have matched : (compare Lib.json (answered Sample.withID) (answered Sample.withoutID)).verdict =
    verdictMatch := by decide +kernel
  have first : document Sample.withID = some
    (.obj [(Sample.idText, .num 7), (Sample.nText, .num (3 / 2))]) := by decide +kernel
  have second : document Sample.withoutID = some (.obj [(Sample.nText, .num (3 / 2))]) := by decide +kernel
  have sound := (match_exact_iff Lib.json unmarshals_json {7, 3 / 2} {Sample.idText, Sample.nText} ?_ ?_).mpr
    ⟨Sample.numbersApart, Sample.textsApart⟩
  · refine ⟨matched, sound _ _ (overBodies_answered first ?_) (overBodies_answered second ?_) matched 0 _ _ _ _ rfl
      rfl first second⟩
    · simp [Document.Over, Documents.overMembers]
    · simp [Document.Over, Documents.overMembers]
  · simp only [Set.mem_insert_iff, Set.mem_singleton_iff, forall_eq_or_imp, forall_eq]
    exact ⟨⟨bytes "7", by decide +kernel⟩, bytes "1.5", by decide +kernel⟩
  · simp only [Set.mem_insert_iff, Set.mem_singleton_iff, forall_eq_or_imp, forall_eq]
    exact ⟨⟨bytes "\"id\"", by decide +kernel⟩, bytes "\"n\"", by decide +kernel⟩

/-- Two whole numbers that differ by one match, since they have one nearest `float64`. -/
theorem match_rounded :
    (compare Lib.json (answered (bytes "9007199254740993")) (answered (bytes "9007199254740992"))).verdict =
    verdictMatch ∧
      document (bytes "9007199254740993") = some (.num 9007199254740993) ∧
      document (bytes "9007199254740992") = some (.num 9007199254740992) ∧
      exactValue (.num 9007199254740993) ≠ exactValue (.num 9007199254740992) := by
  refine ⟨by decide +kernel, by decide +kernel, by decide +kernel, ?_⟩
  simp [exactValue, Document.value]

end Aquila.Replay

import Mathlib.Data.List.Basic

/-! JSON texts. A byte of a string that is not UTF-8 is written as the escape of the replacement character and read
    as that character; everything else is read as it was. -/

namespace Json
variable {n : Nat} {cs ws : List Char} {c : Char}

/-- A document whose numbers are integers. In a string, `none` stands for a byte that is not UTF-8. -/
inductive Doc where
  | null
  | bool (b : Bool)
  | num (n : Int)
  | str (s : List (Option Char))
  | arr (xs : List Doc)
  | obj (fields : List (String × Doc))

def replacement : Char := '\ufffd'

def scrubText (s : List (Option Char)) : List Char := s.map (·.getD replacement)

mutual

/-- The document with replacement characters for the bytes that are not UTF-8. -/
def Doc.scrub : Doc → Doc
  | .str s => .str ((scrubText s).map some)
  | .arr xs => .arr (scrubList xs)
  | .obj fields => .obj (scrubFields fields)
  | d => d

def scrubList : List Doc → List Doc
  | [] => []
  | d :: ds => d.scrub :: scrubList ds

def scrubFields : List (String × Doc) → List (String × Doc)
  | [] => []
  | (k, d) :: fs => (k, d.scrub) :: scrubFields fs

end

mutual

/-- How many bytes of the document are not UTF-8. -/
def Doc.holes : Doc → Nat
  | .str s => s.count none
  | .arr xs => holesList xs
  | .obj fields => holesFields fields
  | _ => 0

def holesList : List Doc → Nat
  | [] => 0
  | d :: ds => d.holes + holesList ds

def holesFields : List (String × Doc) → Nat
  | [] => 0
  | (_, d) :: fs => d.holes + holesFields fs

end

/-! ### Writing -/

def hex4 (n : Nat) : List Char := [n / 4096 % 16, n / 256 % 16, n / 16 % 16, n % 16].map Nat.digitChar

def shortEscapes : List (Char × Char) :=
  [('"', '"'), ('\\', '\\'), ('\x08', 'b'), ('\x0c', 'f'), ('\n', 'n'), ('\r', 'r'), ('\t', 't')]

def longEscapes : List Char := ['<', '>', '&', '\u2028', '\u2029']

def escape (c : Char) : List Char :=
  match shortEscapes.lookup c with
  | some e => ['\\', e]
  | none => if c.toNat < 32 ∨ c ∈ longEscapes then '\\' :: 'u' :: hex4 c.toNat else [c]

def writeRune : Option Char → List Char
  | some c => escape c
  | none => ['\\', 'u', 'f', 'f', 'f', 'd']

def writeText (s : List (Option Char)) : List Char := s.flatMap writeRune ++ ['"']

def writeInt (n : Int) : List Char := if n < 0 then '-' :: Nat.toDigits 10 n.natAbs else Nat.toDigits 10 n.natAbs

def blank (c : Char) : Bool := c ∈ [' ', '\t', '\n', '\r']

/-- Where blanks are written: in front of an element at a depth, and after a colon. -/
structure Layout where
  gap : Nat → List Char
  space : List Char
  gap_blank : ∀ k, ∀ c ∈ gap k, blank c = true
  space_blank : ∀ c ∈ space, blank c = true

def compact : Layout := ⟨fun _ => [], [], by simp, by simp⟩

def indented : Layout :=
  ⟨fun k => '\n' :: List.replicate (2 * k) ' ', [' '], by simp +contextual [blank, List.mem_replicate], by simp [blank]⟩

section
variable (l : Layout)

mutual

/-- The text of a document at depth `k`. -/
def write (k : Nat) : Doc → List Char
  | .null => ['n', 'u', 'l', 'l']
  | .bool true => ['t', 'r', 'u', 'e']
  | .bool false => ['f', 'a', 'l', 's', 'e']
  | .num n => writeInt n
  | .str s => '"' :: writeText s
  | .arr [] => ['[', ']']
  | .arr (d :: ds) => '[' :: (l.gap (k + 1) ++ (write (k + 1) d ++ writeRest k ds))
  | .obj [] => ['\x7b', '\x7d']
  | .obj ((key, d) :: fs) =>
    '\x7b' :: (l.gap (k + 1) ++ '"' :: (writeText (key.toList.map some) ++ ':' :: (l.space ++
      (write (k + 1) d ++ writeMore k fs))))

/-- The elements after the first one, and the closing bracket. -/
def writeRest (k : Nat) : List Doc → List Char
  | [] => l.gap k ++ [']']
  | d :: ds => ',' :: (l.gap (k + 1) ++ (write (k + 1) d ++ writeRest k ds))

/-- The fields after the first one, and the closing brace. -/
def writeMore (k : Nat) : List (String × Doc) → List Char
  | [] => l.gap k ++ ['\x7d']
  | (key, d) :: fs =>
    ',' :: (l.gap (k + 1) ++ '"' :: (writeText (key.toList.map some) ++ ':' :: (l.space ++
      (write (k + 1) d ++ writeMore k fs))))

end

end

/-! ### Reading -/

def hexVal (c : Char) : Option Nat :=
  if '0' ≤ c ∧ c ≤ '9' then some (c.toNat - '0'.toNat)
  else if 'a' ≤ c ∧ c ≤ 'f' then some (c.toNat - 'a'.toNat + 10)
  else if 'A' ≤ c ∧ c ≤ 'F' then some (c.toNat - 'A'.toNat + 10)
  else none

def readHex (cs : List Char) : Option Nat :=
  if cs.length = 4 then (cs.mapM hexVal).map fun ds => ds.foldl (fun n d => 16 * n + d) 0 else none

def readEscape (e : Char) : Option Char :=
  if e = '/' then some '/' else (shortEscapes.map Prod.swap).lookup e

/-- One code unit of a string: an escape, or a character as it is. -/
def readUnit : List Char → Option (Nat × List Char)
  | [] => none
  | c :: cs =>
    if c ≠ '\\' then if c.toNat < 32 then none else some (c.toNat, cs)
    else match cs with
      | [] => none
      | e :: cs => if e = 'u' then (readHex (cs.take 4)).map (·, cs.drop 4) else (readEscape e).map (·.toNat, cs)

/-- The code units up to the closing quote, at most `n` of them. -/
def readUnits : Nat → List Char → Option (List Nat × List Char)
  | 0, _ => none
  | n + 1, cs =>
    if cs.head? = some '"' then some ([], cs.tail)
    else (readUnit cs).bind fun (u, cs) => (readUnits n cs).map fun (us, cs) => (u :: us, cs)

def scalar (u : Nat) : Char := if u.isValidChar then Char.ofNat u else replacement

/-- The characters of code units: surrogates come in pairs or are replaced. -/
def chars : List Nat → List Char
  | [] => []
  | [u] => [scalar u]
  | u :: v :: us =>
    if (0xd800 ≤ u ∧ u < 0xdc00) ∧ 0xdc00 ≤ v ∧ v < 0xe000 then
      Char.ofNat (0x10000 + (u - 0xd800) * 1024 + (v - 0xdc00)) :: chars us
    else scalar u :: chars (v :: us)

def readText (cs : List Char) : Option (List Char × List Char) :=
  (readUnits cs.length cs).map fun (us, cs) => (chars us, cs)

/-- An integer without leading zeros. -/
def readInt (cs : List Char) : Option (Int × List Char) :=
  let minus := cs.head? = some '-'
  let cs := if minus then cs.tail else cs
  let digits := cs.takeWhile Char.isDigit
  let n := Nat.ofDigitChars 10 digits 0
  if digits = Nat.toDigits 10 n then some (if minus then -n else n, cs.dropWhile Char.isDigit) else none

def skip (cs : List Char) : List Char := cs.dropWhile blank

/-- What follows the character `c`, after blanks. -/
def expect (c : Char) (cs : List Char) : Option (List Char) :=
  if (skip cs).head? = some c then some (skip cs).tail else none

def keywords : List (List Char × Doc) :=
  [(['n', 'u', 'l', 'l'], .null), (['t', 'r', 'u', 'e'], .bool true), (['f', 'a', 'l', 's', 'e'], .bool false)]

def readAtom (cs : List Char) : Option (Doc × List Char) :=
  match keywords.find? fun (word, _) => word.isPrefixOf cs with
  | some (word, d) => some (d, cs.drop word.length)
  | none => (readInt cs).map fun (n, cs) => (.num n, cs)

mutual

/-- One document, with at most `n` nested readings. -/
def read : Nat → List Char → Option (Doc × List Char)
  | 0, _ => none
  | n + 1, cs =>
    match skip cs with
    | [] => none
    | c :: cs =>
      if c = '"' then (readText cs).map fun (s, cs) => (.str (s.map some), cs)
      else if c = '[' then
        match expect ']' cs with
        | some cs => some (.arr [], cs)
        | none => (read n cs).bind fun (d, cs) => (readRest n cs).map fun (ds, cs) => (.arr (d :: ds), cs)
      else if c = '\x7b' then
        match expect '\x7d' cs with
        | some cs => some (.obj [], cs)
        | none => (readField n cs).bind fun (f, cs) => (readMore n cs).map fun (fs, cs) => (.obj (f :: fs), cs)
      else readAtom (c :: cs)

def readRest : Nat → List Char → Option (List Doc × List Char)
  | 0, _ => none
  | n + 1, cs =>
    match expect ',' cs with
    | some cs => (read n cs).bind fun (d, cs) => (readRest n cs).map fun (ds, cs) => (d :: ds, cs)
    | none => (expect ']' cs).map ([], ·)

def readField : Nat → List Char → Option ((String × Doc) × List Char)
  | 0, _ => none
  | n + 1, cs =>
    (expect '"' cs).bind fun cs => (readText cs).bind fun (key, cs) =>
      (expect ':' cs).bind fun cs => (read n cs).map fun (d, cs) => ((.ofList key, d), cs)

def readMore : Nat → List Char → Option (List (String × Doc) × List Char)
  | 0, _ => none
  | n + 1, cs =>
    match expect ',' cs with
    | some cs => (readField n cs).bind fun (f, cs) => (readMore n cs).map fun (fs, cs) => (f :: fs, cs)
    | none => (expect '\x7d' cs).map ([], ·)

end

/-- The first document of a text. -/
def parse (cs : List Char) : Option Doc := (read (cs.length + 1) cs).map (·.1)

/-! ### Strings -/

theorem hexVal_digitChar : ∀ d < 16, hexVal (Nat.digitChar d) = some d := by decide

theorem readHex_hex4 (h : n < 65536) : readHex (hex4 n) = some n := by
  have digit : ∀ m, hexVal (Nat.digitChar (m % 16)) = some (m % 16) :=
    fun m => hexVal_digitChar _ (Nat.mod_lt _ (by decide))
  simp only [readHex, hex4, List.map_cons, List.map_nil, List.length_cons, List.length_nil, if_true, List.mapM_cons,
    List.mapM_nil, digit, Option.pure_def, Option.bind_eq_bind, Option.bind_some, Option.map_some, List.foldl_cons,
    List.foldl_nil]
  congr 1
  omega

theorem readUnit_escape (c : Char) (cs : List Char) : readUnit (escape c ++ cs) = some (c.toNat, cs) := by
  unfold escape
  cases short : shortEscapes.lookup c with
  | some e =>
    obtain ⟨before, after, split, -⟩ := List.lookup_eq_some_iff.mp short
    have mem : (c, e) ∈ shortEscapes := by simp [split]
    simp only [shortEscapes, List.mem_cons, Prod.mk.injEq, List.not_mem_nil, or_false] at mem
    rcases mem with ⟨rfl, rfl⟩ | ⟨rfl, rfl⟩ | ⟨rfl, rfl⟩ | ⟨rfl, rfl⟩ | ⟨rfl, rfl⟩ | ⟨rfl, rfl⟩ | ⟨rfl, rfl⟩ <;> rfl
  | none =>
    dsimp only
    split_ifs with long
    · have small : c.toNat < 65536 := by
        have all : longEscapes.all (fun c => c.toNat < 65536) = true := by decide
        exact long.elim (fun low => by omega) fun mem => of_decide_eq_true (List.all_eq_true.mp all c mem)
      have hex := readHex_hex4 small
      simp only [hex4, List.map_cons, List.map_nil] at hex
      simp [readUnit, hex4, hex]
    · have other : c ≠ '\\' := by
        rintro rfl
        exact absurd short (by decide)
      have printable : ¬c.toNat < 32 := fun low => long (.inl low)
      simp [readUnit, other, printable]

theorem escape_head (c : Char) (cs : List Char) : (escape c ++ cs).head? ≠ some '"' := by
  unfold escape
  cases short : shortEscapes.lookup c with
  | some e => simp
  | none =>
    dsimp only
    split_ifs
    · simp
    · rintro quote
      obtain rfl : c = '"' := by simpa using quote
      exact absurd short (by decide)

theorem readUnit_writeRune (r : Option Char) (cs : List Char) :
    readUnit (writeRune r ++ cs) = some ((r.getD replacement).toNat, cs) ∧ (writeRune r ++ cs).head? ≠ some '"' := by
  cases r with
  | none => exact ⟨rfl, by simp [writeRune]⟩
  | some c => exact ⟨readUnit_escape c cs, escape_head c cs⟩

theorem readUnits_write {s : List (Option Char)} (cs : List Char) (h : s.length < n) :
    readUnits n (writeText s ++ cs) = some ((scrubText s).map Char.toNat, cs) := by
  induction s generalizing n with
  | nil =>
    obtain ⟨n, rfl⟩ := Nat.exists_eq_add_one_of_ne_zero (Nat.ne_of_gt h)
    rfl
  | cons r s ih =>
    obtain ⟨n, rfl⟩ := Nat.exists_eq_add_one_of_ne_zero (Nat.ne_of_gt (Nat.zero_lt_of_lt h))
    have text : writeText (r :: s) ++ cs = writeRune r ++ (writeText s ++ cs) := by simp [writeText]
    obtain ⟨unit, head⟩ := readUnit_writeRune r (writeText s ++ cs)
    rw [text, readUnits, if_neg head, unit]
    simp only [Option.bind_some, ih (Nat.lt_of_succ_lt_succ h), Option.map_some]
    rfl

theorem scalar_toNat (c : Char) : scalar c.toNat = c := by
  have valid : c.toNat.isValidChar := c.valid
  rw [scalar, if_pos valid, Char.ofNat_toNat]

theorem chars_toNat (cs : List Char) : chars (cs.map Char.toNat) = cs := by
  induction cs with
  | nil => rfl
  | cons c cs ih =>
    cases cs with
    | nil => simp [chars, scalar_toNat]
    | cons d cs =>
      -- a character is no surrogate
      have high : ¬((0xd800 ≤ c.toNat ∧ c.toNat < 0xdc00) ∧ 0xdc00 ≤ d.toNat ∧ d.toNat < 0xe000) := by
        have := c.valid
        simp only [UInt32.isValidChar, Nat.isValidChar] at this
        have : c.toNat = c.val.toNat := rfl
        omega
      rw [List.map_cons, List.map_cons, chars, if_neg high, scalar_toNat, ← List.map_cons, ih]

theorem length_le_flatMap_writeRune (s : List (Option Char)) : s.length ≤ (s.flatMap writeRune).length := by
  induction s with
  | nil => simp
  | cons r s ih =>
    have : writeRune r ≠ [] := by
      have := (readUnit_writeRune r []).1
      rintro empty
      simp [empty, readUnit] at this
    have := List.length_pos_iff_ne_nil.mpr this
    simp only [List.length_cons, List.flatMap_cons, List.length_append]
    omega

theorem readText_writeText (s : List (Option Char)) (cs : List Char) :
    readText (writeText s ++ cs) = some (scrubText s, cs) := by
  have enough : s.length < (writeText s ++ cs).length := by
    have := length_le_flatMap_writeRune s
    simp only [writeText, List.length_append, List.length_singleton]
    omega
  simp only [readText, readUnits_write cs enough, Option.map_some, chars_toNat]

/-! ### Numbers -/

/-- A number may end here. -/
def Ends (cs : List Char) : Prop := ∀ c ∈ cs.head?, c.isDigit = false

theorem takeDigits {ds : List Char} (digits : ∀ c ∈ ds, c.isDigit = true) (ends : Ends cs) :
    (ds ++ cs).takeWhile Char.isDigit = ds ∧ (ds ++ cs).dropWhile Char.isDigit = cs := by
  rw [List.takeWhile_append_of_pos digits, List.dropWhile_append_of_pos digits]
  cases cs with
  | nil => simp
  | cons c cs => simp [ends c rfl]

theorem toDigits_head : (Nat.toDigits 10 n ++ cs).head? ≠ some '-' := by
  obtain ⟨d, ds, h⟩ := List.exists_cons_of_ne_nil (Nat.toDigits_ne_nil (n := n) (b := 10))
  have digit : d.isDigit = true := Nat.isDigit_of_mem_toDigits (by decide) (by decide) (h ▸ List.mem_cons_self)
  rintro minus
  obtain rfl : d = '-' := by simpa [h] using minus
  exact absurd digit (by decide)

theorem readInt_writeInt (n : Int) (ends : Ends cs) : readInt (writeInt n ++ cs) = some (n, cs) := by
  have digits : ∀ c ∈ Nat.toDigits 10 n.natAbs, c.isDigit = true :=
    fun c => Nat.isDigit_of_mem_toDigits (by decide) (by decide)
  obtain ⟨take, drop⟩ := takeDigits digits ends
  unfold writeInt
  split_ifs with neg
  · simp only [readInt, List.cons_append, List.head?_cons, if_true, List.tail_cons, take, drop,
      Nat.ofDigitChars_ten_toDigits]
    congr 2
    omega
  · simp only [readInt, toDigits_head, if_false, take, drop, Nat.ofDigitChars_ten_toDigits, if_true]
    congr 2
    omega

/-! ### Blanks -/

theorem skip_append (blanks : ∀ c ∈ ws, blank c = true) (cs : List Char) : skip (ws ++ cs) = skip cs :=
  List.dropWhile_append_of_pos blanks

theorem skip_cons (h : blank c = false) (cs : List Char) : skip (c :: cs) = c :: cs := by
  simp [skip, h]

theorem expect_append (blanks : ∀ c ∈ ws, blank c = true) (c : Char) (cs : List Char) :
    expect c (ws ++ cs) = expect c cs := by
  simp only [expect, skip_append blanks]

theorem expect_self (h : blank c = false) (cs : List Char) : expect c (c :: cs) = some cs := by
  simp [expect, skip_cons h]

theorem expect_other {d : Char} (h : blank d = false) (ne : d ≠ c) (cs : List Char) : expect c (d :: cs) = none := by
  simp [expect, skip_cons h, ne]

theorem ends_append (blanks : ∀ c ∈ ws, blank c = true) (ends : Ends cs) :
    Ends (ws ++ cs) := by
  cases ws with
  | nil => exact ends
  | cons c ws =>
    have notDigit : [' ', '\t', '\n', '\r'].all (fun c => !c.isDigit) = true := by decide
    rintro d ⟨⟩
    simpa using List.all_eq_true.mp notDigit c (of_decide_eq_true (blanks c List.mem_cons_self))

theorem ends_cons (h : c.isDigit = false) (cs : List Char) : Ends (c :: cs) := by
  rintro d ⟨⟩
  exact h

/-! ### Documents -/

section
variable (l : Layout)

theorem digit_start (h : c.isDigit = true) : blank c = false ∧ c ∉ ['"', '[', ']', '\x7b', 'n', 't', 'f'] := by
  have other : [' ', '\t', '\n', '\r', '"', '[', ']', '\x7b', 'n', 't', 'f'].all (fun d => !d.isDigit) =
    true := by decide
  have ne : ∀ d ∈ [' ', '\t', '\n', '\r', '"', '[', ']', '\x7b', 'n', 't', 'f'], c ≠ d := by
    rintro d hd rfl
    simpa [h] using List.all_eq_true.mp other c hd
  simp only [List.mem_cons, List.not_mem_nil, or_false, forall_eq_or_imp, forall_eq] at ne
  simp [blank, ne]

theorem writeInt_start (n : Int) :
    ∃ c cs, writeInt n = c :: cs ∧ blank c = false ∧ c ∉ ['"', '[', ']', '\x7b', 'n', 't', 'f'] := by
  obtain ⟨c, cs, h⟩ := List.exists_cons_of_ne_nil (Nat.toDigits_ne_nil (n := n.natAbs) (b := 10))
  rw [writeInt, h]
  split_ifs
  · exact ⟨_, _, rfl, by decide, by decide⟩
  · exact ⟨_, _, rfl, digit_start (Nat.isDigit_of_mem_toDigits (b := 10) (by decide) (by decide)
      (h ▸ List.mem_cons_self))⟩

theorem write_start (d : Doc) (k : Nat) : ∃ c cs, write l k d = c :: cs ∧ blank c = false ∧ c ≠ ']' := by
  rcases d with _ | (_ | _) | n | s | (_ | _) | (_ | _)
  case num =>
    obtain ⟨c, cs, h, start, other⟩ := writeInt_start n
    exact ⟨c, cs, h, start, fun e => other (by simp [e])⟩
  all_goals exact ⟨_, _, rfl, by decide, by decide⟩

theorem readAtom_writeInt (n : Int) (ends : Ends cs) :
    readAtom (writeInt n ++ cs) = some (.num n, cs) := by
  obtain ⟨c, tail, h, -, other⟩ := writeInt_start n
  have number := readInt_writeInt n ends
  simp only [List.mem_cons, List.not_mem_nil, or_false, not_or] at other
  rw [h, List.cons_append] at number ⊢
  simp [readAtom, keywords, number, List.isPrefixOf, Ne.symm, other]

theorem ends_writeRest (ds : List Doc) (k : Nat) (cs : List Char) : Ends (writeRest l k ds ++ cs) := by
  cases ds with
  | nil =>
    rw [writeRest, List.append_assoc]
    exact ends_append (l.gap_blank k) (ends_cons (by decide) cs)
  | cons d ds => exact ends_cons (by decide) _

theorem ends_writeMore (fs : List (String × Doc)) (k : Nat) (cs : List Char) : Ends (writeMore l k fs ++ cs) := by
  cases fs with
  | nil =>
    rw [writeMore, List.append_assoc]
    exact ends_append (l.gap_blank k) (ends_cons (by decide) cs)
  | cons f fs => exact ends_cons (by decide) _

theorem write_pos (d : Doc) (k : Nat) : 0 < (write l k d).length := by
  obtain ⟨c, cs, h, -⟩ := write_start l d k
  simp [h]

theorem scrubText_some (cs : List Char) : scrubText (cs.map some) = cs := by
  rw [scrubText, List.map_map]
  exact List.map_id cs

theorem readField_write (key : String) {d : Doc} {k : Nat} (blanks : ∀ c ∈ ws, blank c = true)
    (value : read n (l.space ++ (write l (k + 1) d ++ cs)) = some (d.scrub, cs)) :
    readField (n + 1) (ws ++ '"' :: (writeText (key.toList.map some) ++ ':' :: (l.space ++ (write l (k + 1) d ++ cs))))
    =
      some ((key, d.scrub), cs) := by
  simp only [readField, expect_append blanks, expect_self (c := '"') (by decide), Option.bind_some, readText_writeText,
    expect_self (c := ':') (by decide), value, Option.map_some, scrubText_some, String.ofList_toList]

mutual

/-- Reading what was written gives the scrubbed document. -/
theorem read_write : ∀ (d : Doc) (k n : Nat) (ws cs : List Char), (write l k d).length ≤ n →
    (∀ c ∈ ws, blank c = true) → Ends cs → read n (ws ++ (write l k d ++ cs)) = some (d.scrub, cs)
  | d, k, 0, _, _, h, _, _ => absurd (write_pos l d k) (by omega)
  | .null, _, n + 1, _, _, _, blanks, _ | .bool true, _, n + 1, _, _, _, blanks, _
  | .bool false, _, n + 1, _, _, _, blanks, _ | .arr [], _, n + 1, _, _, _, blanks, _
  | .obj [], _, n + 1, _, _, _, blanks, _ => by
    rw [read, skip_append blanks]
    rfl
  | .num m, k, n + 1, ws, cs, _, blanks, ends => by
    obtain ⟨c, tail, h, start, other⟩ := writeInt_start m
    have atom := readAtom_writeInt m ends
    simp only [List.mem_cons, List.not_mem_nil, or_false, not_or] at other
    rw [read, skip_append blanks, write]
    rw [h, List.cons_append] at atom ⊢
    simp only [skip_cons start, other, if_false, atom]
    rfl
  | .str s, k, n + 1, ws, cs, _, blanks, _ => by
    rw [read, skip_append blanks, write, List.cons_append, skip_cons (by decide)]
    simp only [if_true, readText_writeText, Option.map_some]
    rfl
  | .arr (d :: ds), k, n + 1, ws, cs, h, blanks, _ => by
    simp only [write, List.length_cons, List.length_append] at h
    have first := read_write d (k + 1) n _ _ (by omega) (l.gap_blank (k + 1)) (ends_writeRest l ds k cs)
    have rest := readRest_write ds k n cs (by omega)
    -- the first element does not close the array
    have more : expect ']' (l.gap (k + 1) ++ (write l (k + 1) d ++ (writeRest l k ds ++ cs))) = none := by
      obtain ⟨c, tail, start, notBlank, other⟩ := write_start l d (k + 1)
      rw [expect_append (l.gap_blank _), start, List.cons_append, expect_other notBlank other]
    rw [read, skip_append blanks, write, List.cons_append, skip_cons (by decide), List.append_assoc, List.append_assoc]
    simp only [more, first, rest, Option.bind_some, Option.map_some, Doc.scrub, scrubList, Char.reduceEq,
      if_true, if_false]
  | .obj ((key, d) :: fs), k, n + 1, ws, cs, h, blanks, _ => by
    simp only [write, List.length_cons, List.length_append] at h
    obtain ⟨n, rfl⟩ : ∃ m, n = m + 1 := Nat.exists_eq_add_one_of_ne_zero (by omega)
    have value := read_write d (k + 1) n _ _ (by omega) l.space_blank (ends_writeMore l fs k cs)
    have first := readField_write l key (l.gap_blank (k + 1)) value
    have rest := readMore_write fs k (n + 1) cs (by omega)
    rw [read, skip_append blanks, write, List.cons_append, skip_cons (by decide)]
    simp only [List.append_assoc, List.cons_append, expect_append (l.gap_blank (k + 1)),
      expect_other (c := '\x7d') (d := '"') (by decide) (by decide), first, rest, Option.bind_some, Option.map_some,
      Doc.scrub, scrubFields, Char.reduceEq, if_true, if_false]

theorem readRest_write : ∀ (ds : List Doc) (k n : Nat) (cs : List Char), (writeRest l k ds).length ≤ n →
    readRest n (writeRest l k ds ++ cs) = some (scrubList ds, cs)
  | ds, k, 0, cs, h => by
    cases ds <;> simp [writeRest] at h
  | [], k, n + 1, cs, _ => by
    rw [readRest, writeRest, List.append_assoc, expect_append (l.gap_blank k), expect_append (l.gap_blank k)]
    rfl
  | d :: ds, k, n + 1, cs, h => by
    simp only [writeRest, List.length_cons, List.length_append] at h
    have first := read_write d (k + 1) n _ _ (by omega) (l.gap_blank (k + 1)) (ends_writeRest l ds k cs)
    have rest := readRest_write ds k n cs (by omega)
    rw [readRest, writeRest, List.cons_append, expect_self (by decide), List.append_assoc, List.append_assoc]
    simp only [first, rest, Option.bind_some, Option.map_some, scrubList]

theorem readMore_write : ∀ (fs : List (String × Doc)) (k n : Nat) (cs : List Char), (writeMore l k fs).length ≤ n →
    readMore n (writeMore l k fs ++ cs) = some (scrubFields fs, cs)
  | fs, k, 0, cs, h => by
    rcases fs with _ | ⟨⟨key, d⟩, fs⟩ <;> simp [writeMore] at h
  | [], k, n + 1, cs, _ => by
    rw [readMore, writeMore, List.append_assoc, expect_append (l.gap_blank k), expect_append (l.gap_blank k)]
    rfl
  | (key, d) :: fs, k, n + 1, cs, h => by
    simp only [writeMore, List.length_cons, List.length_append] at h
    obtain ⟨n, rfl⟩ : ∃ m, n = m + 1 := Nat.exists_eq_add_one_of_ne_zero (by omega)
    have value := read_write d (k + 1) n _ _ (by omega) l.space_blank (ends_writeMore l fs k cs)
    have first := readField_write l key (l.gap_blank (k + 1)) value
    have rest := readMore_write fs k (n + 1) cs (by omega)
    rw [readMore, writeMore, List.cons_append, expect_self (by decide)]
    simp only [List.append_assoc, List.cons_append, first, rest, Option.bind_some, Option.map_some, scrubFields]

end

theorem parse_write (d : Doc) (ends : Ends cs) : parse (write l 0 d ++ cs) = some d.scrub := by
  have := read_write l d 0 ((write l 0 d ++ cs).length + 1) [] cs (by simp; omega) (by simp) ends
  rw [List.nil_append] at this
  rw [parse, this, Option.map_some]

/-! ### Bytes that are not UTF-8 -/

theorem length_writeText (s : List (Option Char)) :
    (writeText s).length = (writeText ((scrubText s).map some)).length + 5 * s.count none := by
  induction s with
  | nil => rfl
  | cons r s ih =>
    simp only [writeText, scrubText, List.map_cons, List.flatMap_cons, List.length_append, List.append_assoc,
      List.map_map] at ih ⊢
    cases r with
    | none =>
      have escaped : (writeRune none).length = 6 ∧ (writeRune (some replacement)).length = 1 := by decide
      simp only [List.count_cons_self, Option.getD_none, escaped]
      omega
    | some c =>
      simp only [ne_eq, reduceCtorEq, not_false_eq_true, List.count_cons_of_ne, Option.getD_some]
      omega

mutual

/-- Each byte that is not UTF-8 makes the text longer than that of the scrubbed document. -/
theorem length_write : ∀ (d : Doc) (k : Nat), (write l k d).length = (write l k d.scrub).length + 5 * d.holes
  | .null, _ | .bool true, _ | .bool false, _ | .num _, _ | .arr [], _ | .obj [], _ => rfl
  | .str s, _ => by
    simp only [write, Doc.scrub, Doc.holes, List.length_cons, length_writeText s]
    omega
  | .arr (d :: ds), k => by
    simp only [write, Doc.scrub, scrubList, Doc.holes, holesList, List.length_cons, List.length_append,
      length_write d (k + 1), length_writeRest ds k]
    omega
  | .obj ((key, d) :: fs), k => by
    simp only [write, Doc.scrub, scrubFields, Doc.holes, holesFields, List.length_cons, List.length_append,
      length_write d (k + 1), length_writeMore fs k]
    omega

theorem length_writeRest : ∀ (ds : List Doc) (k : Nat),
    (writeRest l k ds).length = (writeRest l k (scrubList ds)).length + 5 * holesList ds
  | [], _ => rfl
  | d :: ds, k => by
    simp only [writeRest, scrubList, holesList, List.length_cons, List.length_append, length_write d (k + 1),
      length_writeRest ds k]
    omega

theorem length_writeMore : ∀ (fs : List (String × Doc)) (k : Nat),
    (writeMore l k fs).length = (writeMore l k (scrubFields fs)).length + 5 * holesFields fs
  | [], _ => rfl
  | (key, d) :: fs, k => by
    simp only [writeMore, scrubFields, holesFields, List.length_cons, List.length_append, length_write d (k + 1),
      length_writeMore fs k]
    omega

end

end

theorem scrubText_of_count {s : List (Option Char)} (h : s.count none = 0) : (scrubText s).map some = s := by
  rw [scrubText, List.map_map]
  refine (List.map_congr_left fun r hr => ?_).trans (List.map_id s)
  cases r with
  | none => exact absurd hr (List.count_eq_zero.mp h)
  | some c => rfl

mutual

theorem Doc.scrub_of_holes : ∀ {d : Doc}, d.holes = 0 → d.scrub = d
  | .null, _ | .bool _, _ | .num _, _ => rfl
  | .str _, h => congrArg Doc.str (scrubText_of_count h)
  | .arr _, h => congrArg Doc.arr (scrubList_of_holes h)
  | .obj _, h => congrArg Doc.obj (scrubFields_of_holes h)

theorem scrubList_of_holes : ∀ {ds : List Doc}, holesList ds = 0 → scrubList ds = ds
  | [], _ => rfl
  | d :: ds, h => by
    simp only [holesList, Nat.add_eq_zero_iff] at h
    rw [scrubList, Doc.scrub_of_holes h.1, scrubList_of_holes h.2]

theorem scrubFields_of_holes : ∀ {fs : List (String × Doc)}, holesFields fs = 0 → scrubFields fs = fs
  | [], _ => rfl
  | (_, d) :: fs, h => by
    simp only [holesFields, Nat.add_eq_zero_iff] at h
    rw [scrubFields, Doc.scrub_of_holes h.1, scrubFields_of_holes h.2]

end

end Json

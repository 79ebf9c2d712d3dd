import Mathlib.Data.List.TakeWhile
import Mathlib.Algebra.Ring.Int.Defs
import Mathlib.Algebra.Ring.Nat

/-! Decimal numbers as bytes, as `printf` writes them and `strtol` and `strtoull` read them. -/

namespace Decimal

def isDigit (b : UInt8) : Bool := 48 ≤ b && b ≤ 57

def isSpace (b : UInt8) : Bool := b = 32 || (9 ≤ b && b ≤ 13)

def value (ds : List UInt8) : Nat := ds.foldl (fun n d => 10 * n + (d.toNat - 48)) 0

def digits (n : Nat) : List UInt8 := (Nat.toDigits 10 n).map fun c => UInt8.ofNat c.toNat

def sign (s : List UInt8) : Bool × List UInt8 :=
  if s.head? = some 45 then (true, s.tail) else if s.head? = some 43 then (false, s.tail) else (false, s)

/-- The nearest number that has 64 bits. -/
def clamp (n : Int) : Int := if n < -2 ^ 63 then -2 ^ 63 else if n > 2 ^ 63 - 1 then 2 ^ 63 - 1 else n

/-- `strtol` with base 10: the value, within 64 bits, and where the number ends, if there is one. -/
def strtol (s : List UInt8) : Option (Int × List UInt8) :=
  let (negative, rest) := sign (s.dropWhile isSpace)
  let ds := rest.takeWhile isDigit
  if ds = [] then none
  else
    some (clamp (if negative then -value ds else value ds), rest.dropWhile isDigit)

/-- `strtoull` with base 10. The value of a negative number is taken modulo 2 ^ 64. -/
def strtoull (s : List UInt8) : Option (Nat × List UInt8) :=
  let (negative, rest) := sign (s.dropWhile isSpace)
  let ds := rest.takeWhile isDigit
  if ds = [] then none
  else
    let n := value ds
    let v := if n ≥ 2 ^ 64 then 2 ^ 64 - 1 else if negative then (2 ^ 64 - n) % 2 ^ 64 else n
    some (v, rest.dropWhile isDigit)

theorem toNat_of_isDigit {c : Char} (h : c.isDigit = true) : 48 ≤ c.toNat ∧ c.toNat < 58 := by
  simp only [Char.isDigit, Bool.and_eq_true, decide_eq_true_eq, ge_iff_le, UInt32.le_iff_toNat_le] at h
  exact ⟨h.1, Nat.lt_succ_of_le h.2⟩

theorem digit_of_isDigit {c : Char} (h : c.isDigit = true) : isDigit (UInt8.ofNat c.toNat) = true ∧
    (UInt8.ofNat c.toNat).toNat = c.toNat := by
  have range := toNat_of_isDigit h
  have all : ∀ k < 58, 48 ≤ k → isDigit (UInt8.ofNat k) = true ∧ (UInt8.ofNat k).toNat = k := by decide
  exact all c.toNat range.2 range.1

section
variable (n : Nat)

theorem isDigit_of_mem : ∀ d ∈ digits n, isDigit d = true := by
  intro d hd
  obtain ⟨c, hc, rfl⟩ := List.mem_map.mp hd
  exact (digit_of_isDigit (Nat.isDigit_of_mem_toDigits (by decide) (by decide) hc)).1

theorem value_digits : value (digits n) = n := by
  have fold : ∀ (cs : List Char) (start : Nat), (∀ c ∈ cs, c.isDigit = true) →
      (cs.map fun c => UInt8.ofNat c.toNat).foldl (fun n d => 10 * n + (d.toNat - 48)) start =
        Nat.ofDigitChars 10 cs start := by
    intro cs
    induction cs with
    | nil => intro start _; simp
    | cons c cs ih =>
      intro start isDigit
      rw [List.map_cons, List.foldl_cons, Nat.ofDigitChars_cons, (digit_of_isDigit (isDigit c List.mem_cons_self)).2]
      exact ih _ fun d hd => isDigit d (List.mem_cons_of_mem c hd)
  have read := fold (Nat.toDigits 10 n) 0 fun c => Nat.isDigit_of_mem_toDigits (by decide) (by decide)
  rw [Nat.ofDigitChars_ten_toDigits] at read
  exact read

theorem flatMap_utf8EncodeChar : (Nat.toDigits 10 n).flatMap String.utf8EncodeChar = digits n := by
  have each : ∀ c ∈ Nat.toDigits 10 n, String.utf8EncodeChar c = [UInt8.ofNat c.toNat] := by
    intro c hc
    have range := toNat_of_isDigit (Nat.isDigit_of_mem_toDigits (by decide) (by decide) hc)
    exact if_pos (show c.val.toNat ≤ 127 from by have : c.val.toNat = c.toNat := rfl; omega)
  rw [List.flatMap_def, List.map_congr_left each, ← List.flatMap_def, ← List.map_eq_flatMap, digits]

theorem digits_ne_nil : digits n ≠ [] := by simp [digits]

theorem sign_digits : sign ((digits n).dropWhile isSpace) = (false, digits n) := by
  obtain ⟨d, ds, split⟩ := List.exists_cons_of_ne_nil (digits_ne_nil n)
  have first : isDigit d = true := isDigit_of_mem n d (split ▸ List.mem_cons_self)
  have other : isSpace d = false ∧ d ≠ 45 ∧ d ≠ 43 := by
    simp only [isDigit, Bool.and_eq_true, decide_eq_true_eq, UInt8.le_iff_toNat_le] at first
    simp only [isSpace, Bool.or_eq_false_iff, Bool.and_eq_false_iff, decide_eq_false_iff_not, UInt8.le_iff_toNat_le,
      ← UInt8.toNat_inj, ne_eq]
    have low : 48 ≤ d.toNat := first.1
    simp only [UInt8.reduceToNat]
    omega
  rw [split, List.dropWhile_cons_of_neg (by simp [other.1])]
  simp [sign, other.2]

theorem takeWhile_digits : (digits n).takeWhile isDigit = digits n ∧ (digits n).dropWhile isDigit = [] :=
  ⟨List.takeWhile_eq_self_iff.mpr (isDigit_of_mem n), List.dropWhile_eq_nil_iff.mpr (isDigit_of_mem n)⟩

theorem strtol_digits : strtol (digits n) = some (clamp n, []) := by
  simp [strtol, sign_digits, takeWhile_digits, digits_ne_nil, value_digits]

theorem strtoull_digits (h : n < 2 ^ 64) : strtoull (digits n) = some (n, []) := by
  have fits : ¬2 ^ 64 ≤ n := Nat.not_le.mpr h
  simp only [strtoull, sign_digits, takeWhile_digits, digits_ne_nil, value_digits, if_false, if_neg fits,
    Bool.false_eq_true]

end

end Decimal

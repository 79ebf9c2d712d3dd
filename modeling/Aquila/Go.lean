import Mathlib.Data.Nat.Digits.Defs
import Mathlib.Data.List.Sort
import Aquila.Lib.Utf8

/-! The parts of Go and of its standard library that the packages use. `len` counts UTF-8 bytes. What is taken from
    `net/url`, `net/netip`, `encoding/json`, `crypto/sha256` and the Unicode tables is a parameter, the record
    `Lib`. -/

namespace Aquila

/-! ### Numbers and times -/

/-- `int64` arithmetic: the value that 64 bits keep. -/
def int64 (x : Int) : Int := (x + 2 ^ 63) % 2 ^ 64 - 2 ^ 63

/-- An instant, in nanoseconds since the zero `time.Time`. -/
abbrev Time := Int

instance timeOrder : LinearOrder Time := Int.instLinearOrder
instance timePreorder : Preorder Time := timeOrder.toPreorder

/-- `time.Duration`, in nanoseconds. -/
abbrev Duration := Int

namespace Time

def isZero (t : Time) : Bool := t = 0
def add (t : Time) (d : Duration) : Time := t + d
def after (t u : Time) : Bool := u < t
def before (t u : Time) : Bool := t < u
def truncate (t : Time) (d : Duration) : Time := t - t % d

end Time

def microsecond : Duration := 1000
def millisecond : Duration := 1000000
def second : Duration := 1000 * millisecond
def minute : Duration := 60 * second

/-! ### Strings -/

def spaceChars : List Char :=
  ['\t', '\n', '\x0b', '\x0c', '\r', ' ', '\u0085', '\u00a0', '\u1680', '\u2000', '\u2001', '\u2002', '\u2003',
    '\u2004', '\u2005', '\u2006', '\u2007', '\u2008', '\u2009', '\u200a', '\u2028', '\u2029', '\u202f', '\u205f',
    '\u3000']

def isSpace (c : Char) : Bool := c ∈ spaceChars

def trimBoth (p : Char → Bool) (s : List Char) : List Char := ((s.dropWhile p).reverse.dropWhile p).reverse

def trimSpace (s : String) : String := .ofList (trimBoth isSpace s.toList)

def trim (s : String) (c : Char) : String := .ofList (trimBoth (· = c) s.toList)

def trimRight (s : String) (c : Char) : String := .ofList (s.toList.reverse.dropWhile (· = c)).reverse

def hasPrefix (s pre : String) : Bool := pre.toList.isPrefixOf s.toList
def hasSuffix (s suf : String) : Bool := suf.toList.isSuffixOf s.toList

def trimSuffix (s suf : String) : String :=
  if hasSuffix s suf then .ofList (s.toList.take (s.toList.length - suf.toList.length)) else s

def trimPrefix (s pre : String) : String := if hasPrefix s pre then .ofList (s.toList.drop pre.toList.length) else s

def contains (s sub : String) : Bool := s.toList.tails.any fun t => sub.toList.isPrefixOf t

def containsAny (s chars : String) : Bool := s.toList.any fun c => c ∈ chars.toList

def byteLen (s : String) : Nat := s.utf8ByteSize

def cutBefore (s : String) (c : Char) : String := .ofList (s.toList.takeWhile (· ≠ c))

/-- `strings.Split` at a one-character separator. -/
def splitChars (c : Char) : List Char → List (List Char)
  | [] => [[]]
  | x :: xs =>
    if x = c then [] :: splitChars c xs
    else match splitChars c xs with
      | [] => [[x]]
      | w :: ws => (x :: w) :: ws

def split (s : String) (c : Char) : List String := (splitChars c s.toList).map .ofList

/-- `strings.SplitN(s, c, 2)`: the text before the first `c` and the text after it. -/
def splitN2 (s : String) (c : Char) : List String :=
  match s.toList.dropWhile (· ≠ c) with
  | [] => [s]
  | _ :: rest => [cutBefore s c, .ofList rest]

def cutChars (sub : List Char) : List Char → Option (List Char × List Char)
  | [] => if sub = [] then some ([], []) else none
  | c :: cs =>
    if sub.isPrefixOf (c :: cs) then some ([], (c :: cs).drop sub.length)
    else (cutChars sub cs).map fun (before, after) => (c :: before, after)

/-- `strings.Cut`. -/
def cut (s sub : String) : Option (String × String) :=
  (cutChars sub.toList s.toList).map fun (before, after) => (.ofList before, .ofList after)

/-- `strings.Fields`: the words between blanks. -/
def fields (s : String) : List String := ((s.toList.splitOnP isSpace).filter (· ≠ [])).map .ofList

/-- `strings.ReplaceAll` of one character by another. -/
def replaceAll (s : String) (old new : Char) : String := .ofList (s.toList.map fun c => if c = old then new else c)

def join (sep : String) : List String → String
  | [] => ""
  | [s] => s
  | s :: ss => s ++ sep ++ join sep ss

/-- One element of a path that is cleaned; `out` holds the elements so far, the last one first. -/
def cleanElem (rooted : Bool) (out : List String) (elem : String) : List String :=
  if elem = "" ∨ elem = "." then out
  else if elem = ".." then
    match out with
    | last :: rest => if last = ".." then ".." :: out else rest
    | [] => if rooted then [] else [".."]
  else elem :: out

/-- `path.Clean`. -/
def pathClean (p : String) : String :=
  let rooted := hasPrefix p "/"
  let out := join "/" ((split p '/').foldl (cleanElem rooted) []).reverse
  if rooted then "/" ++ out else if out = "" then "." else out

/-- `path.Ext`: the last element's text from its last dot on. -/
def pathExt (p : String) : String :=
  let rev := p.toList.reverse
  let tail := rev.takeWhile fun c => c ≠ '/' && c ≠ '.'
  match rev.drop tail.length with
  | '.' :: _ => .ofList ('.' :: tail.reverse)
  | _ => ""

/-- `path.Base`: the last element of a path. -/
def pathBase (p : String) : String :=
  if p = "" then "."
  else
    let base := ((p.toList.reverse.dropWhile (· = '/')).takeWhile (· ≠ '/')).reverse
    if base = [] then "/" else .ofList base

def asciiLower (c : Char) : Char := if 'A' ≤ c ∧ c ≤ 'Z' then Char.ofNat (c.toNat + 32) else c
def asciiUpper (c : Char) : Char := if 'a' ≤ c ∧ c ≤ 'z' then Char.ofNat (c.toNat - 32) else c

/-! ### Bytes -/

def bytes (s : String) : List UInt8 := s.toUTF8.data.toList

instance coeBytes : Coe String (List UInt8) := ⟨bytes⟩

theorem bytes_eq_encode (s : String) : bytes s = Utf8.encode s.toList := by
  have utf8 : s.toUTF8 = s.toList.utf8Encode := by
    conv => lhs; rw [← String.ofList_toList (s := s)]
    exact String.toByteArray_ofList
  rw [bytes, utf8, List.utf8Encode, List.toList_data_toByteArray, Utf8.encode]

theorem bytes_injective : Function.Injective bytes := by
  intro s t h
  rw [bytes_eq_encode, bytes_eq_encode] at h
  exact String.toList_inj.mp (Utf8.encode_injective h)

/-- Drops the byte sequences of `runes` that `b` starts with, at most `fuel` of them. -/
def dropRunes (runes : List (List UInt8)) : Nat → List UInt8 → List UInt8
  | 0, b => b
  | fuel + 1, b =>
    match runes.find? (·.isPrefixOf b) with
    | some r => dropRunes runes fuel (b.drop r.length)
    | none => b

def trimSpaceBytes (b : List UInt8) : List UInt8 :=
  let runes := spaceChars.map fun c => bytes (String.singleton c)
  let b := dropRunes runes b.length b
  (dropRunes (runes.map List.reverse) b.length b.reverse).reverse

/-! ### Numbers as text -/

/-- The last `w` or more hexadecimal digits of `n`, least first. -/
def hexLE (w n : Nat) : List Nat := Nat.digits 16 n ++ List.replicate (w - (Nat.digits 16 n).length) 0

/-- `fmt.Sprintf("%0wx", n)`. -/
def fmtHex (w n : Nat) : String := .ofList ((hexLE w n).reverse.map Nat.digitChar)

def itoa (n : Int) : String := toString n

/-- `strconv.Atoi`. -/
def atoi (s : String) : Option Int :=
  let (negative, digits) := match s.toList with
    | '-' :: digits => (true, digits)
    | '+' :: digits => (false, digits)
    | digits => (false, digits)
  if digits = [] ∨ !digits.all Char.isDigit then none
  else
    let n : Int := Nat.ofDigitChars 10 digits 0
    let n := if negative then -n else n
    if n < -2 ^ 63 ∨ 2 ^ 63 ≤ n then none else some n

/-! ### The standard library -/

structure URL where
  scheme : String
  opaquePart : String := ""
  user : Option String := none
  host : String
  path : String := ""
  rawPath : String := ""
  omitHost : Bool := false
  forceQuery : Bool := false
  rawQuery : String := ""
  fragment : String := ""
  rawFragment : String := ""
deriving DecidableEq, Repr

inductive Addr where
  | v4 (bits : BitVec 32)
  | v6 (bits : BitVec 128) (zone : String)
deriving DecidableEq, Repr

/-- A JSON document as `json.Unmarshal` stores it in an interface value. A number is a `float64`, which
    is a rational; the fields of an object have distinct names and no order. -/
inductive JSON where
  | null
  | bool (b : Bool)
  | num (x : Rat)
  | str (s : String)
  | arr (xs : List JSON)
  | obj (fields : List (String × JSON))

/-- What the program takes from the standard library without its source being here. -/
structure Lib where
  -- `url.Parse`: the URL, or the text of the error.
  parseURL : String → Except String URL
  -- `URL.String`.
  urlString : URL → String
  -- `http.NewRequest`: the request target that is sent for a method and a path, or the text of the error.
  requestURI : (method path : String) → Except String String
  -- `netip.ParseAddr`.
  parseAddr : String → Option Addr
  -- `json.Unmarshal` into an interface value.
  unmarshal : List UInt8 → Option JSON
  -- `sha256`, in hexadecimal.
  sha256 : String → String
  -- `fmt.Sprintf("%.1f", float64(ns)/1e6)`.
  formatMs : Int → String
  -- `fmt.Sprintf("%q", s)`.
  quote : String → String
  -- `unicode.ToLower` outside ASCII.
  lowerRune : Char → Char
  -- `unicode.ToUpper` outside ASCII.
  upperRune : Char → Char
  -- A representative of the characters that `strings.EqualFold` identifies, outside ASCII.
  foldRune : Char → Char

namespace Lib
variable (lib : Lib)

def toLower (s : String) : String :=
  .ofList (s.toList.map fun c => if c.toNat < 128 then asciiLower c else lib.lowerRune c)

def toUpper (s : String) : String :=
  .ofList (s.toList.map fun c => if c.toNat < 128 then asciiUpper c else lib.upperRune c)

def equalFold (s t : String) : Bool :=
  let fold := fun c : Char => if c.toNat < 128 then asciiLower c else lib.foldRune c
  s.toList.map fold = t.toList.map fold

end Lib

end Aquila

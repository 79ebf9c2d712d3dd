import Aquila.Ingest
import Aquila.Net
import Aquila.Lib.Regexp

/-! `internal/ingest/sanitize.go`: what is kept of the texts of a span. A text comes in as bytes, which need not be
    UTF-8. -/

namespace Aquila.Ingest

def maxString : Int := 512

/-- What `internal/ingest` takes from the standard library, besides `Lib`. -/
structure Std extends Lib where
  -- `unicode.Is(unicode.Cf, r)`.
  formatRune : Char → Bool
  -- `URL.EscapedPath`.
  escapedPath : URL → String
  -- `strconv.FormatFloat(x, 'f', -1, 64)`, of the bits of `x`.
  formatFloat : UInt64 → String

/-- The library on ASCII text and on plain URLs, for evaluating the model. -/
def Std.plain : Std :=
  { Lib.plain with
    formatRune := fun c => c = '\u200b'
    escapedPath := fun u => .ofList (u.path.toList.takeWhile fun c => c ≠ '?' && c ≠ '#')
    formatFloat := fun _ => "0" }

/-! ### Texts -/

def within (lo hi c : Char) : Bool := lo ≤ c && c ≤ hi

def literal (c : Char) : Regexp Char := .char (· = c)

/-- An escape sequence with parameters. -/
def csiSeq : Regexp Char :=
  .seq (.alt (.seq (literal '\x1b') (literal '[')) (literal '\u009b'))
    (.seq (.many (within '0' '?')) (.seq (.many (within ' ' '/')) (.char (within '@' '~'))))

/-- A command for the terminal's system, with its end if it has one. -/
def oscSeq : Regexp Char :=
  .seq (.seq (literal '\x1b') (literal ']'))
    (.seq (.many fun c => c ≠ '\x07' &&
      c ≠ '\x1b') (.opt (.alt (literal '\x07') (.seq (literal '\x1b') (literal '\\')))))

def ansiSeq : Regexp Char :=
  .alt csiSeq (.alt oscSeq (.seq (literal '\x1b') (.char fun c => within '@' 'Z' c || within '\\' '_' c)))

/-- `strings.ToValidUTF8(s, "")`. -/
def toValidUTF8 (s : List UInt8) : List Char := (Utf8.runes s).filterMap id

/-- The characters of a text as a range over it gives them. -/
def runesOf (s : List UInt8) : String := .ofList ((Utf8.runes s).map fun r => r.getD '\ufffd')

def printable (std : Std) (c : Char) : Bool := !(c.toNat < 32 || c.toNat = 127 || std.formatRune c)

def clipRunes (s : List Char) (n : Int) : List Char := s.take n.toNat

def sanitizeText (std : Std) (s : List UInt8) (max : Int) : String :=
  .ofList (clipRunes (trimBoth isSpace ((ansiSeq.removeAll (toValidUTF8 s)).filter (printable std))) max)

/-! ### Names and routes -/

def stripQueryAndFragment (s : String) : String := cutBefore (cutBefore s '#') '?'

def isLetter (c : Char) : Bool := within 'a' 'z' c || within 'A' 'Z' c

/-- The text before the first scheme of a URL, and the text from there on. -/
def schemeStart (s : String) : Option (String × String) :=
  match cutChars "://".toList s.toList with
  | none => none
  | some (before, after) =>
    let letters := (before.reverse.takeWhile isLetter).reverse
    some (.ofList (before.reverse.dropWhile isLetter).reverse, .ofList (letters ++ "://".toList ++ after))

def stripAbsoluteURL (std : Std) (s : String) : String :=
  match schemeStart s with
  | none => s
  | some (before, raw) =>
    match std.parseURL raw with
    | .error _ => ""
    | .ok u =>
      if u.host = "" then ""
      else
        let p := if std.escapedPath u = "" then "/" else std.escapedPath u
        let before := trimSpace before
        if before = "" then p else trimSpace (before ++ " " ++ p)

def sanitizeName (std : Std) (s : List UInt8) : String :=
  stripAbsoluteURL std (stripQueryAndFragment (sanitizeText std s maxString))

def sanitizeRoute (std : Std) (s : List UInt8) : String :=
  let s := sanitizeText std s maxString
  if s = "" then ""
  else if contains s "://" then stripAbsoluteURL std s
  else stripQueryAndFragment s

def sanitizeFile (std : Std) (s : List UInt8) : String :=
  let s := sanitizeText std s maxString
  if s = "" then ""
  else
    let s := pathClean (replaceAll s '\\' '/')
    if s = "." ∨ s = "/" ∨ hasPrefix s "../" ∨ contains s "/../" ∨ contains s ".." then "" else s

def methods : List String := ["GET", "POST", "PUT", "PATCH", "DELETE", "HEAD", "OPTIONS"]

def canonicalMethod (std : Std) (s : String) : String :=
  let s := std.toUpper (trimSpace s)
  let s := String.ofList (s.toList.takeWhile fun c => c ∉ [' ', '\t', '\r', '\n'])
  if s ∈ methods then s else ""

def canonicalStatus (n : Int) : Int := if n < 100 ∨ n > 599 then 0 else n

end Aquila.Ingest
